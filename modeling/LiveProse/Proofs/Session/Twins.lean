import LiveProse.Proofs.Chart.Renaming
import LiveProse.Proofs.Session.Sites
import LiveProse.Proofs.Session.Spelling
import Mathlib.Logic.Equiv.Fintype

/-! Buffers whose tokens have the same texts and effects, one by one. The parser skips the same tokens of
both and knows the same about the others, so two current charts with the same productions show them as
one chain, but for names. -/

namespace LiveProse

open TokenSequence

section Lists

variable {α β : Type} {P : β → β → Prop} {f : α → α} {l l' : List (α × β)}

theorem rel_lookup [DecidableEq α] (hf : Function.Injective f)
    (h : List.Forall₂ (fun entry entry' => f entry.1 = entry'.1 ∧ P entry.2 entry'.2) l l') (key : α) :
    Option.Rel P (l.lookup key) (l'.lookup (f key)) := by
  induction h with
  | nil => exact .none
  | @cons entry entry' rest rest' hhead _ ih =>
    obtain ⟨other, value⟩ := entry
    obtain ⟨other', value'⟩ := entry'
    obtain ⟨rfl, hvalue⟩ := hhead
    rw [List.lookup_cons, List.lookup_cons]
    have hkeys : (f key == f other) = (key == other) := by
      rw [Bool.eq_iff_iff, beq_iff_eq, beq_iff_eq, hf.eq_iff]
    rw [hkeys]
    cases key == other with
    | true => exact .some hvalue
    | false => exact ih

theorem pairs_map (f : α → β) (l : List α) : pairs (l.map f) = (pairs l).map (Prod.map f f) := by
  rw [pairs, pairs, ← List.map_tail, List.zip_map]

end Lists

/-! ### Words and tokens -/

namespace Vocabulary

/-- Two words stand for one text. -/
def SameText (vocabulary vocabulary' : Vocabulary) (word word' : Word) : Prop :=
  ∃ text, vocabulary.texts[word.index]? = some text ∧ vocabulary'.texts[word'.index]? = some text

variable {vocabulary vocabulary' : Vocabulary} {word word' : Word}

theorem SameText.lookup_eq (h : SameText vocabulary vocabulary' word word') :
    vocabulary.lookup word = vocabulary'.lookup word' := by
  obtain ⟨text, hword, hword'⟩ := h
  rw [lookup, lookup, hword, hword']

/-- Where no text has two words, words are told apart by their texts. -/
theorem biUnique_sameText (h : vocabulary.texts.Nodup) (h' : vocabulary'.texts.Nodup) :
    Relator.BiUnique (SameText vocabulary vocabulary') := by
  have hinj {vocabulary : Vocabulary} (h : vocabulary.texts.Nodup) {word other : Word} {text : Text}
      (hword : vocabulary.texts[word.index]? = some text)
      (hother : vocabulary.texts[other.index]? = some text) : word = other := by
    have hlt := (List.getElem?_eq_some_iff.1 hword).1
    exact congrArg Word.mk ((List.getElem?_inj hlt h).1 (hword.trans hother.symm))
  refine ⟨?_, ?_⟩
  · rintro a b word' ⟨text, ha, hword'⟩ ⟨other, hb, hother⟩
    obtain rfl : text = other := Option.some.inj (hword'.symm.trans hother)
    exact hinj h ha hb
  · rintro word b c ⟨text, hword, hb⟩ ⟨other, hother, hc⟩
    obtain rfl : text = other := Option.some.inj (hword.symm.trans hother)
    exact hinj h' hb hc

end Vocabulary

/-- Two tokens differ in the numbers of their words alone, and in the lines that they count as. -/
structure Token.Alike (R : Word → Word → Prop) (first second : Token) : Prop where
  text : Option.Rel R first.text second.text
  codepoints : first.codepoints = second.codepoints
  onlyWhitespace : first.onlyWhitespace = second.onlyWhitespace
  effect : first.effect = second.effect

section Tokens

variable {vocabulary vocabulary' : Vocabulary} {token token' : Token} {before : LexicalState}

theorem Token.Spells.alike {lexeme lexeme' : Lexeme} (h : token.Spells vocabulary lexeme)
    (h' : token'.Spells vocabulary' lexeme') (htext : lexeme.text = lexeme'.text)
    (hspace : lexeme.onlyWhitespace = lexeme'.onlyWhitespace) (hkind : lexeme.kind = lexeme'.kind) :
    token.Alike (vocabulary.SameText vocabulary') token' := by
  obtain ⟨word, hword, rfl⟩ := h
  obtain ⟨word', hword', rfl⟩ := h'
  refine ⟨.some ⟨lexeme.text, hword, ?_⟩, congrArg List.length htext, hspace,
    congrArg TokenEffect.single hkind⟩
  rw [hword', htext]

/-- The parser skips both of two such tokens or knows the same about them. -/
theorem Token.Alike.ofToken? (h : token.Alike (vocabulary.SameText vocabulary') token')
    (before : LexicalState) : Option.Rel (SiteInfo.Alike (vocabulary.SameText vocabulary'))
      (SiteInfo.ofToken? token before vocabulary) (SiteInfo.ofToken? token' before vocabulary') := by
  obtain ⟨htext, -, hspace, heffect⟩ := h
  unfold SiteInfo.ofToken? Token.stateAfter
  rw [hspace, heffect]
  dsimp only
  split_ifs
  · exact .none
  · generalize token.text = text, token'.text = text' at htext
    cases htext with
    | none => exact .none
    | some hword =>
      rw [Option.map_some, Option.map_some, hword.lookup_eq]
      exact .some ⟨.some hword, rfl⟩

theorem forall₂_significant {f : Handle → Handle} {row row' : List (Handle × Token)}
    (h : List.Forall₂ (fun entry entry' => f entry.1 = entry'.1 ∧
      entry.2.Alike (vocabulary.SameText vocabulary') entry'.2) row row') (before : LexicalState) :
    List.Forall₂ (fun entry entry' => f entry.1 = entry'.1 ∧
        entry.2.Alike (vocabulary.SameText vocabulary') entry'.2)
      (significant vocabulary before row) (significant vocabulary' before row') := by
  induction h generalizing before with
  | nil => exact .nil
  | @cons entry entry' rest rest' hhead _ ih =>
    obtain ⟨handle, token⟩ := entry
    obtain ⟨handle', token'⟩ := entry'
    obtain ⟨hhandle, halike⟩ := hhead
    have hstate : token.stateAfter before = token'.stateAfter before :=
      congrArg (fun effect : TokenEffect => effect.toEffect.apply before) halike.effect
    have hinfo := halike.ofToken? before
    rw [significant, significant, hstate]
    generalize SiteInfo.ofToken? token before vocabulary = info,
      SiteInfo.ofToken? token' before vocabulary' = info' at hinfo
    cases hinfo with
    | none => exact ih _
    | some hinfo => exact .cons ⟨hhandle, hinfo⟩ (ih _)

end Tokens

/-! ### Buffers -/

namespace Buffer

variable {buffer first second : Buffer} {vocabulary vocabulary' : Vocabulary}

/-- The texts and the effects of the tokens. -/
def labels (buffer : Buffer) (vocabulary : Vocabulary) : List (Text × TokenEffect) :=
  buffer.tokens.toList.map fun token => (token.spelling vocabulary, token.effect)

/-- Tokens of segments are told apart by their texts and effects. -/
theorem Segmented.alike (h : first.Segmented vocabulary) (h' : second.Segmented vocabulary')
    (hlabels : first.labels vocabulary = second.labels vocabulary') :
    List.Forall₂ (Token.Alike (vocabulary.SameText vocabulary'))
      first.tokens.toList second.tokens.toList := by
  have hcut {buffer : Buffer} {vocabulary : Vocabulary} (h : buffer.Segmented vocabulary) :
      ∀ token ∈ buffer.tokens.toList, ∃ lexeme, token.Spells vocabulary lexeme ∧
        Relex.Cuttable lexeme := by
    obtain ⟨lexemes, text, ⟨-, hspells, hcuttable, -⟩, -⟩ := h
    intro token htoken
    obtain ⟨i, hi, rfl⟩ := List.getElem_of_mem htoken
    exact ⟨_, hspells.get hi (hspells.length_eq ▸ hi), hcuttable _ (List.getElem_mem _)⟩
  have hsame : List.Forall₂ (fun token token' : Token =>
      (token.spelling vocabulary, token.effect) = (token'.spelling vocabulary', token'.effect))
      first.tokens.toList second.tokens.toList := by
    rw [← List.forall₂_map_right_iff, ← List.forall₂_map_left_iff, List.forall₂_eq_eq_eq]
    exact hlabels
  have hleft := (List.forall₂_and_left _ _).2 ⟨hcut h, hsame⟩
  have hright := (List.forall₂_and_left _ _).2 ⟨hcut h', hleft.flip⟩
  refine hright.flip.imp fun token token' hboth => ?_
  obtain ⟨⟨lexeme', hspells', hcuttable'⟩, ⟨lexeme, hspells, hcuttable⟩, hlabel⟩ := hboth
  rw [hspells.spelling_eq, hspells'.spelling_eq, hspells.effect_eq, hspells'.effect_eq] at hlabel
  obtain ⟨htext, heffect⟩ := Prod.mk.inj hlabel
  exact hspells.alike hspells' htext (by rw [hcuttable.1, hcuttable'.1, htext])
    (TokenEffect.single.inj heffect)

/-- What is known about a site is looked up among the sentinels and the tokens that the parser does not
skip. -/
theorem Exact.info?_eq_lookup (hexact : buffer.Exact vocabulary) (h : buffer.Placed)
    (hspelled : buffer.Spelled vocabulary) (site : Site) :
    buffer.info? site = ((Site.start, SiteInfo.sentinel) :: (.finish, .sentinel) ::
      (buffer.sites vocabulary).map fun (handle, info) => (Site.token handle, info)).lookup site := by
  ext info
  rw [hexact.info?_eq_some_iff h hspelled,
    lookup_eq_some_iff_mem (nodup_known h vocabulary)]

end Buffer

/-! ### Charts -/

/-- A chart shows a buffer as it is: the chart is current and the right things are known about the sites
of the buffer, whose tokens are those of segments; no text has two words, no production two numbers. -/
structure Chart.Depicts (chart : Chart) (buffer : Buffer) : Prop extends chart.Distinct where
  current : chart.Current
  found : chart.buffer? buffer.id = some buffer
  spelled : buffer.Spelled chart.vocabulary
  exact : buffer.Exact chart.vocabulary
  segmented : buffer.Segmented chart.vocabulary

theorem Chart.Depicts.placed {chart : Chart} {buffer : Buffer} (h : chart.Depicts buffer) :
    buffer.Placed :=
  h.current.placed buffer (buffer?_eq_some h.found).1

/-- A renaming fits two buffers: it takes the number of the one to that of the other, the tokens in their
order, and every production to one that is spelled alike. -/
structure Renaming.Fits (ρ : Renaming) (s t : Chart) (first second : Buffer) : Prop where
  buffer : ρ.buffers first.id = second.id
  handles : first.tokens.handles.map ρ.handles = second.tokens.handles
  grammar : s.grammar.Alike (s.vocabulary.SameText t.vocabulary) ρ.productions t.grammar

namespace Renaming.Fits

open Chart

variable {ρ : Renaming} {s t : Chart} {first second : Buffer} (h : ρ.Fits s t first second)
variable (hs : s.Depicts first) (ht : t.Depicts second)
variable (hlabels : first.labels s.vocabulary = second.labels t.vocabulary)
include h hs ht hlabels

theorem forall₂_entries : List.Forall₂ (fun entry entry' => ρ.handles entry.1 = entry'.1 ∧
    entry.2.Alike (s.vocabulary.SameText t.vocabulary) entry'.2)
      first.tokens.entries second.tokens.entries := by
  have hnames : List.Forall₂ (fun entry entry' : Handle × Token => ρ.handles entry.1 = entry'.1)
      first.tokens.entries second.tokens.entries := by
    have hhandles := h.handles
    rwa [Sequence.handles, Sequence.handles, List.map_map, ← List.forall₂_eq_eq_eq,
      List.forall₂_map_left_iff, List.forall₂_map_right_iff] at hhandles
  have halike := hs.segmented.alike ht.segmented hlabels
  rw [Sequence.toList, Sequence.toList, List.forall₂_map_left_iff, List.forall₂_map_right_iff] at halike
  exact List.Forall₂.mp (fun _ _ hname htoken => ⟨hname, htoken⟩) hnames halike

theorem forall₂_sites : List.Forall₂ (fun entry entry' => ρ.handles entry.1 = entry'.1 ∧
    entry.2.Alike (s.vocabulary.SameText t.vocabulary) entry'.2)
      (first.sites s.vocabulary) (second.sites t.vocabulary) :=
  forall₂_significant (h.forall₂_entries hs ht hlabels) .initial

/-- The same is known about a site under its other name. -/
theorem info? (site : Site) : Option.Rel (SiteInfo.Alike (s.vocabulary.SameText t.vocabulary))
    (first.info? site) (second.info? (ρ.site site)) := by
  rw [hs.exact.info?_eq_lookup hs.placed hs.spelled, ht.exact.info?_eq_lookup ht.placed ht.spelled]
  refine rel_lookup ρ.site_injective (.cons ⟨rfl, SiteInfo.alike_sentinel⟩
    (.cons ⟨rfl, SiteInfo.alike_sentinel⟩ ?_)) site
  rw [List.forall₂_map_left_iff, List.forall₂_map_right_iff]
  exact (h.forall₂_sites hs ht hlabels).imp fun _ _ hsite => ⟨congrArg Site.token hsite.1, hsite.2⟩

theorem hasRecord_eq (site : Site) : second.hasRecord (ρ.site site) = first.hasRecord site := by
  have hinfo := h.info? hs ht hlabels site
  rw [← Buffer.isSome_info?, ← Buffer.isSome_info?]
  generalize first.info? site = info, second.info? (ρ.site site) = info' at hinfo
  cases hinfo <;> rfl

theorem path_eq : second.path = first.path.map ρ.site := by
  have hsites : (second.sites t.vocabulary).map (fun entry => Site.token entry.1) =
      ((first.sites s.vocabulary).map fun entry => Site.token entry.1).map ρ.site := by
    have hall := (h.forall₂_sites hs ht hlabels).imp fun _ _ hsite => congrArg Site.token hsite.1
    rw [List.map_map, eq_comm, ← List.forall₂_eq_eq_eq, List.forall₂_map_left_iff,
      List.forall₂_map_right_iff]
    exact hall
  rw [hs.exact.path_eq, ht.exact.path_eq, hsites, List.map_cons, List.map_append]
  rfl

omit hlabels in
theorem holds_production (p : ProductionId) :
    t.holds (.production (ρ.productions p)) = s.holds (.production p) := by
  have hactive {chart : Chart} (hchart : chart.Current) (p : ProductionId) :
      chart.holds (.production p) = (chart.grammar.get? p).isSome := by
    rw [Bool.eq_iff_iff]
    exact List.contains_iff_mem.trans ⟨hchart.ordered.sound.active p, hchart.active p⟩
  have hget := h.grammar p
  rw [hactive hs.current, hactive ht.current]
  generalize s.grammar.get? p = production, t.grammar.get? (ρ.productions p) = production' at hget
  cases hget <;> rfl

theorem holds_next (source target : Site) :
    t.holds (.next second.id (ρ.site source) (ρ.site target)) =
      s.holds (.next first.id source target) := by
  rw [Bool.eq_iff_iff, (hs.current.chained _ _ hs.found).edges,
    (ht.current.chained _ _ ht.found).edges, h.path_eq hs ht hlabels, pairs_map]
  change Prod.map ρ.site ρ.site (source, target) ∈ _ ↔ _
  exact List.mem_map_of_injective (ρ.site_injective.prodMap ρ.site_injective)

theorem holds_available (handle : Handle) :
    t.holds (.available second.id (ρ.handles handle)) = s.holds (.available first.id handle) := by
  rw [Bool.eq_iff_iff, (hs.current.chained _ _ hs.found).available,
    (ht.current.chained _ _ ht.found).available, ← h.hasRecord_eq hs ht hlabels]
  rfl

theorem holds_endOfSentence (site : Site) (positive : Bool) :
    t.holds (.endOfSentence second.id (ρ.site site) positive) =
      s.holds (.endOfSentence first.id site positive) := by
  have hinfo := h.info? hs ht hlabels site
  have hsense (info info' : SiteInfo) (halike : info.traits = info'.traits) :
      (ρ.site site).endsSentence info' = site.endsSentence info := by
    cases site with
    | start | finish => rfl
    | token => exact congrArg TokenTraits.sentenceEnd halike.symm
  rw [Bool.eq_iff_iff, (hs.current.chained _ _ hs.found).endings,
    (ht.current.chained _ _ ht.found).endings]
  generalize first.info? site = info, second.info? (ρ.site site) = info' at hinfo
  cases hinfo with
  | none => simp
  | some halike => simp [hsense _ _ halike.traits]

/-- The one chart shows about its buffer what the other one shows under the other names. -/
theorem renames : s.Renames (s.vocabulary.SameText t.vocabulary) ρ first.id t := by
  refine ⟨Vocabulary.biUnique_sameText hs.texts ht.texts, h.grammar, fun site => ?_,
    fun fact hfact hkind => ?_⟩
  · have hinfo := h.info? hs ht hlabels site
    rw [h.buffer, info_of_buffer? hs.found, info_of_buffer? ht.found]
    generalize first.info? site = info, second.info? (ρ.site site) = info' at hinfo
    cases hinfo with
    | none => exact SiteInfo.alike_sentinel
    | some halike => exact halike
  · cases fact with
    | production p => exact h.holds_production hs ht p
    | available id handle =>
      obtain rfl : id = first.id := by simpa [Fact.buffer?] using hfact
      rw [Renaming.fact, h.buffer]
      exact h.holds_available hs ht hlabels handle
    | next id source target =>
      obtain rfl : id = first.id := by simpa [Fact.buffer?] using hfact
      rw [Renaming.fact, h.buffer]
      exact h.holds_next hs ht hlabels source target
    | endOfSentence id site positive =>
      obtain rfl : id = first.id := by simpa [Fact.buffer?] using hfact
      rw [Renaming.fact, h.buffer]
      exact h.holds_endOfSentence hs ht hlabels site positive
    | potential | complete => exact absurd rfl hkind

end Renaming.Fits

end LiveProse
