import LiveProse.Proofs.Session.Twins

/-! Charts do not depend on the history. Two sessions with the same productions show buffers whose tokens
have the same texts and effects alike: under other names they hold the same matches, each of them
counted as often, and list the same spans and results. -/

namespace LiveProse

open TokenSequence

/-! ### Other names -/

theorem exists_perm_map_eq {α : Type} {l l' : List α} (h : l.Nodup) (h' : l'.Nodup)
    (hlength : l.length = l'.length) : ∃ σ : Equiv.Perm α, l.map σ = l' := by
  obtain ⟨σ, hσ⟩ := Equiv.Perm.exists_extending_pair (fun i : Fin l.length => l[i])
    (fun i => l'[i.cast hlength]) (fun i j heq => Fin.ext (h.getElem_inj_iff.1 heq))
    fun i j heq => Fin.ext (h'.getElem_inj_iff.1 heq)
  refine ⟨σ, List.ext_getElem (by simpa using hlength) fun i hi _ => ?_⟩
  rw [List.getElem_map]
  exact hσ ⟨i, by simpa using hi⟩

namespace Chart

variable {s t : Chart}

/-- Two charts define the same productions, when words are spelled out. -/
structure SameProductions (s t : Chart) : Prop where
  there : ∀ id production, s.grammar.get? id = some production → ∃ id' production',
    t.grammar.get? id' = some production' ∧
      production.Alike (s.vocabulary.SameText t.vocabulary) production'
  back : ∀ id' production', t.grammar.get? id' = some production' → ∃ id production,
    s.grammar.get? id = some production ∧
      production.Alike (s.vocabulary.SameText t.vocabulary) production'

/-- The same productions have the same numbers, when these are changed. -/
theorem SameProductions.exists_alike (h : s.SameProductions t) (hs : s.Distinct) (ht : t.Distinct) :
    ∃ numbers, s.grammar.Alike (s.vocabulary.SameText t.vocabulary) numbers t.grammar := by
  have halikes := Production.biUnique_alike (Vocabulary.biUnique_sameText hs.texts ht.texts)
  have hpartner (id : {id // ∃ production, s.grammar.get? id = some production}) : ∃ id',
      ∀ production, s.grammar.get? id = some production → ∃ production',
        t.grammar.get? id' = some production' ∧
          production.Alike (s.vocabulary.SameText t.vocabulary) production' := by
    obtain ⟨id, production, hget⟩ := id
    obtain ⟨id', production', hget', halike⟩ := h.there id production hget
    refine ⟨id', fun other hother => ⟨production', hget', ?_⟩⟩
    rwa [Option.some.inj (hother.symm.trans hget)]
  -- the partners make an injection of finitely many numbers, and a permutation extends it
  choose partner hpartner using hpartner
  have hinjective : Function.Injective partner := by
    rintro ⟨id, production, hget⟩ ⟨other, production', hget'⟩ heq
    obtain ⟨q, hq, halike⟩ := hpartner ⟨id, production, hget⟩ production hget
    obtain ⟨q', hq', halike'⟩ := hpartner ⟨other, production', hget'⟩ production' hget'
    obtain rfl : q = q' := Option.some.inj (hq.symm.trans (heq ▸ hq'))
    obtain rfl : production = production' := halikes.1 halike halike'
    exact Subtype.ext (hs.productions.distinct production id other hget hget')
  have hfinite : Finite {id // ∃ production, s.grammar.get? id = some production} := by
    refine Set.Finite.subset (s.grammar.toList.map Prod.fst).finite_toSet ?_
    rintro id ⟨production, hget⟩
    exact List.mem_map_of_mem (f := Prod.fst) (Grammar.mem_toList.2 hget)
  obtain ⟨numbers, hnumbers⟩ :=
    Equiv.Perm.exists_extending_pair Subtype.val partner Subtype.val_injective hinjective
  refine ⟨numbers, fun id => ?_⟩
  cases hget : s.grammar.get? id with
  | some production =>
    obtain ⟨production', hget', halike⟩ := hpartner ⟨id, production, hget⟩ production hget
    rw [hnumbers ⟨id, production, hget⟩, hget']
    exact .some halike
  | none =>
    cases hother : t.grammar.get? (numbers id) with
    | none => exact .none
    | some production' =>
      -- the number would be that of a partner, but `id` has none
      obtain ⟨other, production, hget', halike⟩ := h.back _ _ hother
      obtain ⟨q, hq, halike'⟩ := hpartner ⟨other, production, hget'⟩ production hget'
      obtain rfl : q = production' := halikes.2 halike' halike
      have heq : numbers other = numbers id :=
        (hnumbers ⟨other, production, hget'⟩).trans (ht.productions.distinct q _ _ hq hother)
      rw [numbers.injective heq, hget] at hget'
      cases hget'

end Chart

namespace Renaming

open Chart

variable {ρ : Renaming} {s t : Chart} {first second : Buffer}

theorem exists_fits (hs : s.Depicts first) (ht : t.Depicts second) (h : s.SameProductions t)
    (hlabels : first.labels s.vocabulary = second.labels t.vocabulary) :
    ∃ ρ : Renaming, ρ.Fits s t first second := by
  have hnodup {buffer : Buffer} (hplaced : buffer.Placed) : buffer.tokens.handles.Nodup :=
    (hplaced.tokens Token.codepointSummary).named.nodup_handles
  have hlength : first.tokens.handles.length = second.tokens.handles.length := by
    have hlengths := congrArg List.length hlabels
    simpa [Buffer.labels] using hlengths
  obtain ⟨handles, hhandles⟩ := exists_perm_map_eq (hnodup hs.placed) (hnodup ht.placed) hlength
  obtain ⟨productions, hproductions⟩ := h.exists_alike hs.toDistinct ht.toDistinct
  exact ⟨⟨Equiv.swap first.id second.id, productions, handles⟩, Equiv.swap_apply_left _ _, hhandles,
    hproductions⟩

end Renaming

/-! ### Lists of matches -/

namespace MatchSpan

/-- Two matches are at one place, and their results are spelled alike. -/
structure Alike (R : Word → Word → Prop) (numbers : Equiv.Perm ProductionId)
    (first second : MatchSpan) : Prop where
  lo : first.lo = second.lo
  hi : first.hi = second.hi
  production : numbers first.production = second.production
  result : first.result.Alike R second.result

/-- The place of a match. -/
def place (span : MatchSpan) : ℕ × ℕ := (span.lo, span.hi)

/-- Two lists show the same places one by one, and the same matches but for the order at one place. -/
structure ListsAlike (R : Word → Word → Prop) (numbers : Equiv.Perm ProductionId)
    (spans spans' : List MatchSpan) : Prop where
  places : spans.map place = spans'.map place
  rows : ∃ row, List.Forall₂ (Alike R numbers) spans row ∧ row.Perm spans'

theorem comesFirst_cons {a b : ℕ} {as bs : List ℕ} :
    comesFirst (a :: as) (b :: bs) = true ↔ a < b ∨ a = b ∧ comesFirst as bs = true := by
  simp [comesFirst]

theorem comesFirst_trans {as bs cs : List ℕ} (hab : comesFirst as bs = true)
    (hbc : comesFirst bs cs = true) : comesFirst as cs = true := by
  induction as generalizing bs cs with
  | nil => rfl
  | cons a as ih =>
    match bs, cs with
    | [], _ => cases hab
    | _ :: _, [] => cases hbc
    | b :: bs, c :: cs =>
      rw [comesFirst_cons] at hab hbc ⊢
      rcases hab with hab | ⟨rfl, hab⟩ <;> rcases hbc with hbc | ⟨rfl, hbc⟩
      · exact .inl (hab.trans hbc)
      · exact .inl hab
      · exact .inl hbc
      · exact .inr ⟨rfl, ih hab hbc⟩

theorem comesFirst_total (as bs : List ℕ) : comesFirst as bs = true ∨ comesFirst bs as = true := by
  induction as generalizing bs with
  | nil => exact .inl rfl
  | cons a as ih =>
    match bs with
    | [] => exact .inr rfl
    | b :: bs =>
      rw [comesFirst_cons, comesFirst_cons]
      rcases lt_trichotomy a b with hlt | rfl | hgt
      · exact .inl (.inl hlt)
      · exact (ih bs).imp (fun h => .inr ⟨rfl, h⟩) fun h => .inr ⟨rfl, h⟩
      · exact .inr (.inl hgt)

theorem pairwise_sorted (spans : List MatchSpan) :
    ((sorted spans).map place).Pairwise fun a b => toLex a ≤ toLex b := by
  have hsorted : (sorted spans).Pairwise fun a b => comesFirst a.order b.order = true := by
    apply List.pairwise_mergeSort
    · exact fun a b c hab hbc => comesFirst_trans hab hbc
    · intro a b
      rw [Bool.or_eq_true]
      exact comesFirst_total a.order b.order
  refine List.pairwise_map.2 (hsorted.imp fun hab => ?_)
  rw [order, order, comesFirst_cons, comesFirst_cons] at hab
  rw [Prod.Lex.toLex_le_toLex]
  exact hab.imp_right (And.imp_right fun hhi => hhi.elim le_of_lt fun heq => heq.1.le)

/-- Rows of matches that are alike but for the order are listed alike. -/
theorem listsAlike_sorted {R : Word → Word → Prop} {numbers : Equiv.Perm ProductionId}
    {spans row spans' : List MatchSpan} (hrow : List.Forall₂ (Alike R numbers) spans row)
    (hperm : row.Perm spans') : ListsAlike R numbers (sorted spans) (sorted spans') := by
  obtain ⟨row', hrow', hperm'⟩ := List.perm_comp_forall₂ (List.mergeSort_perm spans _) hrow
  have hall : row'.Perm (sorted spans') :=
    (hperm'.trans hperm).trans (List.mergeSort_perm spans' _).symm
  refine ⟨?_, row', hrow', hall⟩
  have hplaces : (sorted spans).map place = row'.map place := by
    rw [← List.forall₂_eq_eq_eq, List.forall₂_map_left_iff, List.forall₂_map_right_iff]
    exact hrow'.imp fun _ _ halike => Prod.ext halike.lo halike.hi
  refine List.Perm.eq_of_pairwise (fun a b _ _ hab hba => toLex.injective (le_antisymm hab hba))
    (pairwise_sorted spans) (pairwise_sorted spans') ?_
  rw [hplaces]
  exact hall.map place

end MatchSpan

/-! ### Matches -/

/-- A match of a buffer as it is listed. -/
def Chart.matchSpan? (chart : Chart) (buffer : Buffer) (key : MatchKey) : Option MatchSpan :=
  (buffer.span? key).bind fun place =>
    (chart.result? key).map fun result => ⟨place.1, place.2, key.production, result⟩

namespace Renaming.Fits

open Chart

variable {ρ : Renaming} {s t : Chart} {first second : Buffer} (h : ρ.Fits s t first second)
variable (hs : s.Depicts first) (ht : t.Depicts second)
variable (hlabels : first.labels s.vocabulary = second.labels t.vocabulary)
include h hs ht hlabels

/-- The buffers count the same matches, and as often. -/
theorem count_eq (key : MatchKey) :
    second.potentials.count (ρ.key key) = first.potentials.count key ∧
      second.completes.count (ρ.key key) = first.completes.count key := by
  have hrenames := h.renames hs ht hlabels
  have hderivable {chart : Chart} (hchart : chart.Current) (fact : Fact) :
      chart.holds fact = true ↔ table.Derivable chart fact :=
    hchart.ordered.holds_iff_derivable hchart.settled hchart.unitOrdered fact
  have hsupport (fact : Fact) (hfact : fact.buffer? = some first.id) :=
    hrenames.encard_support_eq (hderivable hs.current) (hderivable ht.current) hfact
  have hbuffer : (ρ.key key).buffer = second.id ↔ key.buffer = first.id := by
    rw [← h.buffer]
    exact ρ.buffers.injective.eq_iff
  have hfirst := hs.current.counts (buffer?_eq_some hs.found).1 key
  have hsecond := ht.current.counts (buffer?_eq_some ht.found).1 (ρ.key key)
  simp only [hbuffer] at hsecond
  rw [← Nat.cast_inj (R := ℕ∞), ← Nat.cast_inj (R := ℕ∞), hfirst.1, hfirst.2, hsecond.1, hsecond.2]
  split_ifs with hkey
  · exact ⟨hsupport (.potential key) (congrArg some hkey), hsupport (.complete key) (congrArg some hkey)⟩
  · exact ⟨rfl, rfl⟩

theorem get?_tokens (handle : Handle) : Option.Rel (Token.Alike (s.vocabulary.SameText t.vocabulary))
    (first.tokens.get? handle) (second.tokens.get? (ρ.handles handle)) := by
  rw [Sequence.get?_eq_lookup, Sequence.get?_eq_lookup]
  exact rel_lookup ρ.handles.injective (h.forall₂_entries hs ht hlabels) handle

/-- A token and its twin have as many codepoints before them. -/
theorem offset_eq {handle : Handle} (hmem : handle ∈ first.tokens.handles) :
    offset second.tokens (some (ρ.handles handle)) = offset first.tokens (some handle) := by
  obtain ⟨rank, hrank, rfl⟩ := List.getElem_of_mem hmem
  have hfirst := hs.placed.tokens Token.codepointSummary
  have hsecond := ht.placed.tokens Token.codepointSummary
  have hnth : first.tokens.nth rank = some first.tokens.handles[rank] := by
    rw [hfirst.nth_eq, List.getElem?_eq_getElem hrank]
  have hnth' : second.tokens.nth rank = some (ρ.handles first.tokens.handles[rank]) := by
    rw [hsecond.nth_eq, ← h.handles, List.getElem?_map, List.getElem?_eq_getElem hrank]
    rfl
  have hlengths : first.tokens.toList.map (·.codepoints) = second.tokens.toList.map (·.codepoints) := by
    rw [← List.forall₂_eq_eq_eq, List.forall₂_map_left_iff, List.forall₂_map_right_iff]
    exact (hs.segmented.alike ht.segmented hlabels).imp fun _ _ halike => halike.codepoints
  have hlength : first.tokens.entries.length = second.tokens.entries.length :=
    (h.forall₂_entries hs ht hlabels).length_eq
  have hle : rank ≤ first.tokens.entries.length := by simpa using hrank.le
  calc offset second.tokens (some (ρ.handles first.tokens.handles[rank]))
      = ((second.tokens.toList.take rank).map (·.codepoints)).sum := by
        rw [offset, ← hnth']
        exact hsecond.sumBefore (hlength ▸ hle)
    _ = ((first.tokens.toList.take rank).map (·.codepoints)).sum := by
        rw [List.map_take, List.map_take, hlengths]
    _ = offset first.tokens (some first.tokens.handles[rank]) := by
        rw [offset, ← hnth]
        exact (hfirst.sumBefore hle).symm

theorem span?_eq (key : MatchKey) : second.span? (ρ.key key) = first.span? key := by
  have hmem (handle : Handle) (token : Token) (hget : first.tokens.get? handle = some token) :
      handle ∈ first.tokens.handles := by
    rw [Sequence.get?_eq_lookup, lookup_eq_some_iff_mem
      (hs.placed.tokens Token.codepointSummary).named.nodup_handles] at hget
    exact List.mem_map_of_mem (f := Prod.fst) hget
  have hbeginning := h.get?_tokens hs ht hlabels key.beginning
  have hend := h.get?_tokens hs ht hlabels key.inclusiveEnd
  have hfirst := hmem key.beginning
  have hlast := hmem key.inclusiveEnd
  unfold Buffer.span?
  change (second.tokens.get? (ρ.handles key.beginning)).bind (fun _ =>
    (second.tokens.get? (ρ.handles key.inclusiveEnd)).bind fun last => some
      (offset second.tokens (some (ρ.handles key.beginning)),
        offset second.tokens (some (ρ.handles key.inclusiveEnd)) + last.codepoints)) =
    (first.tokens.get? key.beginning).bind fun _ =>
      (first.tokens.get? key.inclusiveEnd).bind fun last => some
        (offset first.tokens (some key.beginning),
          offset first.tokens (some key.inclusiveEnd) + last.codepoints)
  generalize first.tokens.get? key.beginning = token,
    second.tokens.get? (ρ.handles key.beginning) = token' at hbeginning hfirst
  generalize first.tokens.get? key.inclusiveEnd = last,
    second.tokens.get? (ρ.handles key.inclusiveEnd) = last' at hend hlast
  cases hbeginning with
  | none => rfl
  | some =>
    cases hend with
    | none => rfl
    | some halike =>
      rw [Option.bind_some, Option.bind_some, Option.bind_some, Option.bind_some, halike.codepoints,
        h.offset_eq hs ht hlabels (hfirst _ rfl), h.offset_eq hs ht hlabels (hlast _ rfl)]

/-- A match of the one buffer and its twin are at one place and have results of one spelling. -/
theorem matchSpan? (key : MatchKey) :
    Option.Rel (MatchSpan.Alike (s.vocabulary.SameText t.vocabulary) ρ.productions)
      (s.matchSpan? first key) (t.matchSpan? second (ρ.key key)) := by
  have hresult := (h.renames hs ht hlabels).result? key
  unfold Chart.matchSpan?
  rw [h.span?_eq hs ht hlabels]
  cases first.span? key with
  | none => exact .none
  | some place =>
    rw [Option.bind_some, Option.bind_some]
    generalize s.result? key = result, t.result? (ρ.key key) = result' at hresult
    cases hresult with
    | none => exact .none
    | some halike => exact .some ⟨rfl, rfl, rfl, halike⟩

theorem perm_completes : (first.completes.toList.map ρ.key).Perm second.completes.toList := by
  have hinjective : Function.Injective ρ.key := Function.LeftInverse.injective ρ.key_symm_key
  refine (List.perm_ext_iff_of_nodup (first.completes.nodup_toList.map hinjective)
    second.completes.nodup_toList).2 fun key => ?_
  obtain ⟨key, rfl⟩ : ∃ other, ρ.key other = key := ⟨_, ρ.key_key_symm key⟩
  rw [List.mem_map_of_injective hinjective, Bank.mem_toList, Bank.mem_toList,
    Bank.contains_iff_count_pos, Bank.contains_iff_count_pos, (h.count_eq hs ht hlabels key).2]

theorem listsAlike : MatchSpan.ListsAlike (s.vocabulary.SameText t.vocabulary) ρ.productions
    (MatchSpan.sorted (first.completes.toList.filterMap (s.matchSpan? first)))
    (MatchSpan.sorted (second.completes.toList.filterMap (t.matchSpan? second))) := by
  have hkeys : List.Forall₂ (fun key key' => ρ.key key = key')
      first.completes.toList (first.completes.toList.map ρ.key) :=
    List.forall₂_map_right_iff.2 (List.forall₂_same.2 fun _ _ => rfl)
  have hrow := List.rel_filterMap
    (fun key key' (heq : ρ.key key = key') => heq ▸ h.matchSpan? hs ht hlabels key) hkeys
  exact MatchSpan.listsAlike_sorted hrow ((h.perm_completes hs ht hlabels).filterMap _)

end Renaming.Fits

namespace Session

open Chart

variable {session : Session} {config config' : SessionConfig} {history history' : List Command}
variable {id id' : BufferId} {buffer buffer' : Buffer}

theorem completeMatches_eq (hbuffer : session.chart.buffer? id = some buffer) :
    session.completeMatches id = .ok (MatchSpan.sorted
      (buffer.completes.toList.filterMap (session.chart.matchSpan? buffer))) := by
  unfold completeMatches Session.buffer
  rw [hbuffer]
  refine congrArg (fun list => Except.ok (MatchSpan.sorted (buffer.completes.toList.filterMap list)))
    (funext fun key => ?_)
  rw [Chart.matchSpan?]
  cases buffer.span? key with
  | none => rfl
  | some place => cases session.chart.result? key <;> rfl

/-- After a history that keeps the tokens of a buffer in range and brings no terminator into it, the
chart shows the buffer as it is. -/
theorem depicts_history (hplain : ∀ command ∈ history, command.Plain)
    (hrange : (new config).StaysInRange id history)
    (hbuffer : ((new config).performAll history).chart.buffer? id = some buffer) :
    ((new config).performAll history).chart.Depicts buffer := by
  have hcurrent := current_new config
  have hnew {P : Vocabulary → Buffer → Prop} : (new config).chart.About P id :=
    fun _ hnone => by cases hnone
  have hdistinct : (new config).chart.Distinct :=
    ⟨List.nodup_singleton _, Grammar.numbered_empty⟩
  have hlegible := about_legible hcurrent hnew hrange buffer hbuffer
  refine ⟨distinct_performAll hcurrent hdistinct history, (reaches_history hcurrent history).1,
    (buffer?_eq_some hbuffer).2 ▸ hbuffer, hlegible.1,
    hlegible.2 (hrange history List.prefix_rfl buffer hbuffer),
    about_segmented hcurrent hnew hplain buffer hbuffer⟩

/-- Two histories that end with the same productions, and with buffers whose tokens have the same texts
and effects, end with the same matches. Some renaming fits the two buffers, and under every one that
does each match has the same count, and the lists of complete matches show the same. -/
theorem performAll_independent (hplain : ∀ command ∈ history, command.Plain)
    (hplain' : ∀ command ∈ history', command.Plain)
    (hrange : (new config).StaysInRange id history)
    (hrange' : (new config').StaysInRange id' history')
    (hbuffer : ((new config).performAll history).chart.buffer? id = some buffer)
    (hbuffer' : ((new config').performAll history').chart.buffer? id' = some buffer')
    (hproductions : ((new config).performAll history).chart.SameProductions
      ((new config').performAll history').chart)
    (hlabels : buffer.labels ((new config).performAll history).vocabulary =
      buffer'.labels ((new config').performAll history').vocabulary) :
    let session := (new config).performAll history
    let session' := (new config').performAll history'
    (∃ ρ : Renaming, ρ.Fits session.chart session'.chart buffer buffer') ∧
      ∀ ρ : Renaming, ρ.Fits session.chart session'.chart buffer buffer' →
        (∀ key, buffer'.potentials.count (ρ.key key) = buffer.potentials.count key ∧
          buffer'.completes.count (ρ.key key) = buffer.completes.count key) ∧
        ∃ spans spans', session.completeMatches id = .ok spans ∧
          session'.completeMatches id' = .ok spans' ∧
          MatchSpan.ListsAlike (session.vocabulary.SameText session'.vocabulary) ρ.productions
            spans spans' := by
  intro session session'
  have hs : session.chart.Depicts buffer := depicts_history hplain hrange hbuffer
  have ht : session'.chart.Depicts buffer' := depicts_history hplain' hrange' hbuffer'
  refine ⟨Renaming.exists_fits hs ht hproductions hlabels, fun ρ hfits => ⟨?_, ?_⟩⟩
  · exact hfits.count_eq hs ht hlabels
  · exact ⟨_, _, completeMatches_eq hbuffer, completeMatches_eq hbuffer',
      hfits.listsAlike hs ht hlabels⟩

/-- A sentence is a word and a full stop. -/
def sentenceNamed (name : Word) : Production :=
  ⟨.sentence, ⟨name, 0⟩, [.ofList [.word], .ofList [.sentenceEnd]]⟩

/-- The full stop and the word are typed into another buffer, the full stop first; the production comes
last, is removed once and defined again. -/
def stopAndWord : List Command :=
  [.introduceBuffer ⟨3⟩ .story, .edit ⟨3⟩ 0 0 ['.'], .edit ⟨3⟩ 0 0 ['b'], .intern ['a'],
    .addProduction (sentenceNamed ⟨3⟩), .removeProduction ⟨0⟩, .addProduction (sentenceNamed ⟨3⟩)]

theorem sameProductions_stopAndWord : ((new {}).performAll wordAndStop).chart.SameProductions
    ((new {}).performAll stopAndWord).chart := by
  have hfirst : (((new {}).performAll wordAndStop).chart.grammar.toList,
      ((new {}).performAll wordAndStop).chart.vocabulary.texts[1]?) =
        ([(⟨0⟩, sentenceNamed ⟨1⟩)], some ['a']) := by
    decide +kernel
  have hsecond : (((new {}).performAll stopAndWord).chart.grammar.toList,
      ((new {}).performAll stopAndWord).chart.vocabulary.texts[3]?) =
        ([(⟨1⟩, sentenceNamed ⟨3⟩)], some ['a']) := by
    decide +kernel
  obtain ⟨hdefined, htext⟩ := Prod.mk.inj hfirst
  obtain ⟨hdefined', htext'⟩ := Prod.mk.inj hsecond
  have halike : (sentenceNamed ⟨1⟩).Alike
      (((new {}).performAll wordAndStop).chart.vocabulary.SameText
        ((new {}).performAll stopAndWord).chart.vocabulary) (sentenceNamed ⟨3⟩) :=
    ⟨rfl, ⟨⟨['a'], htext, htext'⟩, rfl⟩,
      .cons ⟨.cons .word .nil, rfl⟩ (.cons ⟨.cons .sentenceEnd .nil, rfl⟩ .nil)⟩
  refine ⟨fun id production hget => ?_, fun id production hget => ?_⟩
  · rw [← Grammar.mem_toList, hdefined, List.mem_singleton] at hget
    obtain ⟨rfl, rfl⟩ := Prod.mk.inj hget
    refine ⟨⟨1⟩, sentenceNamed ⟨3⟩, ?_, halike⟩
    rw [← Grammar.mem_toList, hdefined']
    exact List.mem_singleton_self _
  · rw [← Grammar.mem_toList, hdefined', List.mem_singleton] at hget
    obtain ⟨rfl, rfl⟩ := Prod.mk.inj hget
    refine ⟨⟨0⟩, sentenceNamed ⟨1⟩, ?_, halike⟩
    rw [← Grammar.mem_toList, hdefined]
    exact List.mem_singleton_self _

/-- The sentence is counted twice whatever came first. -/
theorem performAll_independent_stopAndWord :
    let session := (new {}).performAll wordAndStop
    let session' := (new {}).performAll stopAndWord
    ∃ buffer buffer', session.chart.buffer? ⟨0⟩ = some buffer ∧
      session'.chart.buffer? ⟨3⟩ = some buffer' ∧
      ∃ ρ : Renaming, ρ.Fits session.chart session'.chart buffer buffer' ∧
        buffer'.completes.count (ρ.key ⟨⟨0⟩, ⟨0⟩, 2, ⟨0, 0⟩, ⟨1, 0⟩⟩) = 2 ∧
        ∃ spans spans', session.completeMatches ⟨0⟩ = .ok spans ∧
          session'.completeMatches ⟨3⟩ = .ok spans' ∧ MatchSpan.ListsAlike
            (session.vocabulary.SameText session'.vocabulary) ρ.productions spans spans' := by
  have hplain : ∀ command ∈ wordAndStop, command.Plain := by
    simp [wordAndStop, Command.Plain, Codepoint.terminator]
  have hplain' : ∀ command ∈ stopAndWord, command.Plain := by
    simp [stopAndWord, Command.Plain, Codepoint.terminator]
  have hrange : (new {}).StaysInRange ⟨0⟩ wordAndStop := by decide +kernel
  have hrange' : (new {}).StaysInRange ⟨3⟩ stopAndWord := by decide +kernel
  have hfound : (((new {}).performAll wordAndStop).chart.buffer? ⟨0⟩).map (fun buffer =>
      (buffer.labels ((new {}).performAll wordAndStop).vocabulary,
        buffer.completes.count ⟨⟨0⟩, ⟨0⟩, 2, ⟨0, 0⟩, ⟨1, 0⟩⟩)) =
        some ([(['b'], .single .plainText), (['.'], .single .plainText)], 2) := by
    decide +kernel
  have hfound' : (((new {}).performAll stopAndWord).chart.buffer? ⟨3⟩).map (fun buffer =>
      buffer.labels ((new {}).performAll stopAndWord).vocabulary) =
        some [(['b'], .single .plainText), (['.'], .single .plainText)] := by
    decide +kernel
  have h (buffer buffer' : Buffer)
      (hbuffer : ((new {}).performAll wordAndStop).chart.buffer? ⟨0⟩ = some buffer)
      (hbuffer' : ((new {}).performAll stopAndWord).chart.buffer? ⟨3⟩ = some buffer') :=
    performAll_independent hplain hplain' hrange hrange' hbuffer hbuffer' sameProductions_stopAndWord
  dsimp only at h ⊢
  generalize (new {}).performAll wordAndStop = session,
    (new {}).performAll stopAndWord = session' at h hfound hfound' ⊢
  obtain ⟨buffer, hbuffer, hshown⟩ := Option.map_eq_some_iff.1 hfound
  obtain ⟨buffer', hbuffer', hlabels'⟩ := Option.map_eq_some_iff.1 hfound'
  obtain ⟨hlabels, hcount⟩ := Prod.mk.inj hshown
  obtain ⟨⟨ρ, hfits⟩, hsame⟩ := h buffer buffer' hbuffer hbuffer' (hlabels.trans hlabels'.symm)
  obtain ⟨hcounts, hspans⟩ := hsame ρ hfits
  exact ⟨buffer, buffer', hbuffer, hbuffer', ρ, hfits, (hcounts _).2.trans hcount, hspans⟩

end Session

end LiveProse
