import LiveProse.Proofs.Chart.Relinking

/-! What is known about the sites of a buffer is what its tokens say, read one after another. An edit
reads its region anew from the state in front of it, and stops where the old tokens come to the state
that they were read in before; so all of them are read right again. -/

namespace LiveProse

open TokenSequence

/-- An element of two rows in a row is of the one or of the other. -/
theorem append_eq_append_cons {α : Type} {l more front back : List α} {a : α}
    (h : l ++ more = front ++ a :: back) :
    (∃ rest, l = front ++ a :: rest ∧ back = rest ++ more) ∨
      ∃ rest, front = l ++ rest ∧ more = rest ++ a :: back := by
  rcases List.append_eq_append_iff.1 h with ⟨rest, hfront, hmore⟩ | ⟨rest, hl, hback⟩
  · exact .inr ⟨rest, hfront, hmore⟩
  · cases rest with
    | nil => exact .inr ⟨[], by simpa using hl.symm, hback.symm⟩
    | cons b rest =>
      rw [List.cons_append] at hback
      obtain ⟨rfl, hrest⟩ := List.cons.inj hback
      exact .inl ⟨rest, hl, hrest⟩

/-- Words that have been given out keep their texts. -/
theorem Vocabulary.lookup_of_prefix {vocabulary grown : Vocabulary} {word : Word}
    (hgrows : vocabulary.texts <+: grown.texts) (h : word.index < vocabulary.size) :
    grown.lookup word = vocabulary.lookup word := by
  obtain ⟨more, hmore⟩ := hgrows
  rw [lookup, lookup, ← hmore, List.getElem?_append_left h]

namespace Token.Spells

variable {vocabulary grown : Vocabulary} {token : Token} {lexeme : Lexeme} {before : LexicalState}

/-- A token says the same in a larger vocabulary. -/
theorem ofToken?_eq (h : Spells vocabulary token lexeme) (hgrows : vocabulary.texts <+: grown.texts) :
    SiteInfo.ofToken? token before grown = SiteInfo.ofToken? token before vocabulary := by
  obtain ⟨word, hword, rfl⟩ := h
  unfold SiteInfo.ofToken?
  dsimp only [Option.map_some]
  rw [Vocabulary.lookup_of_prefix hgrows (List.getElem?_eq_some_iff.1 hword).1]

end Token.Spells

/-- The tokens of a row that the parser does not skip, with what they say, beginning with a state. -/
def significant (vocabulary : Vocabulary) (before : LexicalState) :
    List (Handle × Token) → List (Handle × SiteInfo)
  | [] => []
  | (handle, token) :: rest =>
    ((SiteInfo.ofToken? token before vocabulary).map fun info => (handle, info)).toList ++
      significant vocabulary (token.stateAfter before) rest

theorem mem_significant {vocabulary : Vocabulary} {before : LexicalState} {row : List (Handle × Token)}
    {handle : Handle} {info : SiteInfo} : (handle, info) ∈ significant vocabulary before row ↔
      ∃ front token back, row = front ++ (handle, token) :: back ∧
        SiteInfo.ofToken? token (walk before (front.map (·.2))) vocabulary = some info := by
  induction row generalizing before with
  | nil => simp [significant]
  | cons entry row ih =>
    obtain ⟨other, token⟩ := entry
    rw [significant, List.mem_append, ih]
    constructor
    · rintro (hhead | ⟨front, token', back, rfl, hinfo⟩)
      · simp only [Option.mem_toList, Option.map_eq_some_iff, Prod.mk.injEq] at hhead
        obtain ⟨info, hinfo, rfl, rfl⟩ := hhead
        exact ⟨[], token, row, rfl, hinfo⟩
      · exact ⟨(other, token) :: front, token', back, rfl, hinfo⟩
    · rintro ⟨front, token', back, hrow, hinfo⟩
      cases front with
      | nil =>
        obtain ⟨heq, rfl⟩ := List.cons.inj hrow
        obtain ⟨rfl, rfl⟩ := Prod.mk.inj heq
        refine .inl ?_
        simp only [Option.mem_toList, Option.map_eq_some_iff]
        exact ⟨info, hinfo, rfl⟩
      | cons entry front =>
        obtain ⟨rfl, rfl⟩ := List.cons.inj hrow
        exact .inr ⟨front, token', back, rfl, hinfo⟩

theorem map_fst_significant_sublist (vocabulary : Vocabulary) (before : LexicalState)
    (row : List (Handle × Token)) :
    ((significant vocabulary before row).map (·.1)).Sublist (row.map (·.1)) := by
  induction row generalizing before with
  | nil => exact List.Sublist.refl _
  | cons entry row ih =>
    rw [significant]
    cases SiteInfo.ofToken? entry.2 before vocabulary with
    | none => exact (ih _).cons _
    | some info => exact (ih _).cons_cons _

namespace Buffer

variable {buffer other restated : Buffer} {plan : RelexPlan} {vocabulary grown : Vocabulary}
variable {changes : Restatement} {front doomed inserted moved back : List (Handle × Token)}

/-- Every token is of a lexeme, and nothing is known about the sentinels. -/
structure Spelled (vocabulary : Vocabulary) (buffer : Buffer) : Prop where
  spells : ∀ token ∈ buffer.tokens.toList, ∃ lexeme, token.Spells vocabulary lexeme
  start : buffer.info? .start = some .sentinel
  finish : buffer.info? .finish = some .sentinel

/-- What is known about every token is what it says in the state that the tokens before it lead to. -/
def Exact (vocabulary : Vocabulary) (buffer : Buffer) : Prop :=
  ∀ front handle token back, buffer.tokens.entries = front ++ (handle, token) :: back →
    buffer.info? (.token handle) =
      SiteInfo.ofToken? token (walk .initial (front.map (·.2))) vocabulary

theorem Spelled.congr (h : buffer.Spelled vocabulary) (htokens : other.tokens = buffer.tokens)
    (hinfo : other.info? = buffer.info?) (hgrows : vocabulary.texts <+: grown.texts) :
    other.Spelled grown := by
  refine ⟨fun token htoken => ?_, hinfo ▸ h.start, hinfo ▸ h.finish⟩
  obtain ⟨lexeme, hspells⟩ := h.spells token (htokens ▸ htoken)
  exact ⟨lexeme, hspells.mono hgrows⟩

theorem Exact.congr (hexact : buffer.Exact vocabulary) (h : buffer.Spelled vocabulary)
    (htokens : other.tokens = buffer.tokens) (hinfo : other.info? = buffer.info?)
    (hgrows : vocabulary.texts <+: grown.texts) : other.Exact grown := by
  intro front handle token back hentries
  rw [htokens] at hentries
  obtain ⟨lexeme, hspells⟩ := h.spells token (by rw [toList_eq hentries]; simp)
  rw [hinfo, hexact front handle token back hentries, hspells.ofToken?_eq hgrows]

/-- The tokens that the parser does not skip, with what they say. -/
def sites (buffer : Buffer) (vocabulary : Vocabulary) : List (Handle × SiteInfo) :=
  significant vocabulary .initial buffer.tokens.entries

theorem nodup_sites (h : buffer.Placed) (vocabulary : Vocabulary) :
    ((buffer.sites vocabulary).map (·.1)).Nodup :=
  (h.tokens Token.codepointSummary).named.nodup_handles.sublist
    (map_fst_significant_sublist vocabulary _ _)

theorem nodup_known (h : buffer.Placed) (vocabulary : Vocabulary) :
    (((Site.start, SiteInfo.sentinel) :: (.finish, .sentinel) ::
      (buffer.sites vocabulary).map fun (handle, info) => (Site.token handle, info)).map
        Prod.fst).Nodup := by
  have htokens := (buffer.nodup_sites h vocabulary).map (f := Site.token)
    fun _ _ heq => Site.token.inj heq
  rw [List.map_map] at htokens
  simpa [Function.comp_def] using htokens

/-- Known are the sentinels and the tokens that the parser does not skip. -/
theorem Exact.info?_eq_some_iff (hexact : buffer.Exact vocabulary) (h : buffer.Placed)
    (hspelled : buffer.Spelled vocabulary) {site : Site} {info : SiteInfo} :
    buffer.info? site = some info ↔ (site, info) ∈ (Site.start, .sentinel) :: (.finish, .sentinel) ::
      (buffer.sites vocabulary).map fun (handle, info) => (Site.token handle, info) := by
  cases site with
  | start => simp [hspelled.start, eq_comm]
  | finish => simp [hspelled.finish, eq_comm]
  | token handle =>
    have hmem : (Site.token handle, info) ∈ (Site.start, .sentinel) :: (.finish, .sentinel) ::
        (buffer.sites vocabulary).map (fun (handle, info) => (Site.token handle, info)) ↔
        (handle, info) ∈ buffer.sites vocabulary := by
      simp
    rw [hmem, sites, mem_significant]
    constructor
    · intro hinfo
      have hrecord : buffer.hasRecord (.token handle) = true := by
        rw [← isSome_info?, hinfo]
        rfl
      obtain ⟨⟨_, token⟩, hentry, rfl⟩ := List.mem_map.1 (h.live handle hrecord)
      obtain ⟨front, back, hentries⟩ := List.append_of_mem hentry
      exact ⟨front, token, back, hentries, (hexact _ _ _ _ hentries).symm.trans hinfo⟩
    · rintro ⟨front, token, back, hentries, hinfo⟩
      exact (hexact _ _ _ _ hentries).trans hinfo

/-- The path through the recorded sites is that through the tokens that the parser does not skip. -/
theorem Exact.path_eq (hexact : buffer.Exact vocabulary) :
    buffer.path = .start ::
      ((buffer.sites vocabulary).map (fun entry => Site.token entry.1) ++ [.finish]) := by
  have hrow (front row : List (Handle × Token)) (hentries : buffer.tokens.entries = front ++ row) :
      buffer.recordedIn row =
        (significant vocabulary (walk .initial (front.map (·.2))) row).map
          fun entry => Site.token entry.1 := by
    induction row generalizing front with
    | nil => rfl
    | cons entry row ih =>
      obtain ⟨handle, token⟩ := entry
      have hinfo := hexact front handle token row hentries
      have hrest := ih (front ++ [(handle, token)]) (by rw [hentries, List.append_assoc]; rfl)
      rw [List.map_append, walk_append] at hrest
      rw [significant, List.map_append, recordedIn, List.map_cons, List.filter_cons, ← isSome_info?,
        hinfo]
      cases hsays : SiteInfo.ofToken? token (walk .initial (front.map (·.2))) vocabulary with
      | none => exact hrest
      | some info => exact congrArg (Site.token handle :: ·) hrest
  rw [Buffer.path_eq, hrow [] buffer.tokens.entries rfl]
  rfl

/-- The reading of a token of a region says what the token says there. -/
theorem exists_reading (buffer : Buffer) (vocabulary : Vocabulary) (before : LexicalState)
    (front back : List (Handle × Token × Bool)) (handle : Handle) (token : Token) (flag : Bool) :
    ∃ reading ∈ buffer.readings vocabulary before (front ++ (handle, token, flag) :: back),
      reading.handle = handle ∧ reading.new =
        SiteInfo.ofToken? token (walk before (front.map (·.2.1))) vocabulary := by
  induction front generalizing before with
  | nil => exact ⟨_, List.mem_cons_self, rfl, rfl⟩
  | cons entry front ih =>
    obtain ⟨reading, hreading, hhandle, hnew⟩ := ih (entry.2.1.stateAfter before)
    exact ⟨reading, List.mem_cons_of_mem _ hreading, hhandle, hnew⟩

namespace Restates

variable (R : Restates buffer plan vocabulary restated grown changes front doomed inserted moved back)
include R

theorem spelled (h : buffer.Placed) (hspelled : buffer.Spelled vocabulary) :
    (restated.renewed changes).Spelled grown := by
  refine ⟨fun token htoken => ?_, ?_, ?_⟩
  · have hold (row : List (Handle × Token)) (hrow : row ⊆ buffer.tokens.entries)
        (htoken : token ∈ row.map (·.2)) : ∃ lexeme, token.Spells grown lexeme := by
      obtain ⟨lexeme, hspells⟩ := hspelled.spells token (List.map_subset _ hrow htoken)
      exact ⟨lexeme, hspells.mono R.grows⟩
    change token ∈ restated.tokens.toList at htoken
    rw [Sequence.toList, R.restated_entries] at htoken
    simp only [List.map_append, List.mem_append] at htoken
    rw [R.entries] at hold
    rcases htoken with htoken | htoken | htoken | htoken
    · exact hold front (fun entry hentry => by simp [hentry]) htoken
    · obtain ⟨i, hi, rfl⟩ := List.getElem_of_mem htoken
      exact ⟨_, R.spells.get hi (R.spells.length_eq ▸ hi)⟩
    · exact hold moved (fun entry hentry => by simp [hentry]) htoken
    · exact hold back (fun entry hentry => by simp [hentry]) htoken
  · exact (R.stays h fun handle heq => Site.noConfusion heq).1.2.trans hspelled.start
  · exact (R.stays h fun handle heq => Site.noConfusion heq).1.2.trans hspelled.finish

/-- The states that the plan goes by are those that the tokens lead to. -/
theorem states_eq (h : buffer.Placed) (hspelled : buffer.Spelled vocabulary)
    (hrange : InRange buffer.tokens.toList) (hrange' : InRange restated.tokens.toList)
    (hbefore : plan.before = stateBefore buffer.tokens (buffer.tokens.nth front.length))
    (hold : plan.oldAfter =
      stateBefore buffer.tokens (buffer.tokens.nth (front.length + doomed.length))) :
    plan.before = walk .initial (front.map (·.2)) ∧
      moved = differingTokens (walk plan.before (doomed.map (·.2)))
        (walk plan.before (inserted.map (·.2))) (moved ++ back) := by
  have hsingle (rank : ℕ) : ∀ token ∈ buffer.tokens.toList.take rank, token.IsSingle :=
    fun token htoken => (hspelled.spells token (List.mem_of_mem_take htoken)).elim
      fun _ hspells => hspells.isSingle
  have hsingle' (rank : ℕ) : ∀ token ∈ restated.tokens.toList.take rank, token.IsSingle :=
    fun token htoken => ((R.spelled h hspelled).spells token (List.mem_of_mem_take htoken)).elim
      fun _ hspells => hspells.isSingle
  have hstart : plan.before = walk .initial (front.map (·.2)) := by
    rw [hbefore, stateBefore_nth (h.tokens _) (hsingle _) (by simp [R.entries]) (hrange.take _),
      toList_eq R.entries, List.take_left' (List.length_map _)]
  have hstop : plan.oldAfter = walk plan.before (doomed.map (·.2)) := by
    have hentries : buffer.tokens.entries = (front ++ doomed) ++ (moved ++ back) := by
      rw [R.entries, List.append_assoc]
    rw [hold, stateBefore_nth (h.tokens _) (hsingle _) (by simp [R.entries]) (hrange.take _),
      toList_eq hentries, List.take_left' (by simp), List.map_append, walk_append, ← hstart]
  have hstop' : stateBefore restated.tokens (restated.tokens.nth (front.length + inserted.length)) =
      walk plan.before (inserted.map (·.2)) := by
    have hentries : restated.tokens.entries = (front ++ inserted) ++ (moved ++ back) := by
      rw [R.restated_entries, List.append_assoc]
    rw [stateBefore_nth (R.tokens _) (hsingle' _) (by simp [R.restated_entries]) (hrange'.take _),
      toList_eq hentries, List.take_left' (by simp), List.map_append, walk_append, ← hstart]
  have hmoved := R.moved_eq
  rw [hstop, hstop'] at hmoved
  exact ⟨hstart, hmoved⟩

/-- An edit whose old and new tokens are in range leaves exactly the right things known. -/
theorem exact (h : buffer.Placed) (hspelled : buffer.Spelled vocabulary)
    (hexact : buffer.Exact vocabulary) (hrange : InRange buffer.tokens.toList)
    (hrange' : InRange restated.tokens.toList)
    (hbefore : plan.before = stateBefore buffer.tokens (buffer.tokens.nth front.length))
    (hold : plan.oldAfter =
      stateBefore buffer.tokens (buffer.tokens.nth (front.length + doomed.length))) :
    (restated.renewed changes).Exact grown := by
  obtain ⟨hstart, hmoved⟩ := R.states_eq h hspelled hrange hrange' hbefore hold
  have hstays {front' : List (Handle × Token)} {handle : Handle} {token : Token}
      (back' : List (Handle × Token))
      (hentries : buffer.tokens.entries = front' ++ (handle, token) :: back')
      (hhandle : handle ∈ front.map (·.1) ∨ handle ∈ back.map (·.1)) :
      (restated.renewed changes).info? (.token handle) =
        SiteInfo.ofToken? token (walk .initial (front'.map (·.2))) grown := by
    obtain ⟨lexeme, hspells⟩ := hspelled.spells token (by rw [toList_eq hentries]; simp)
    rw [(R.stays h fun other heq => by injection heq with heq; exact heq ▸ hhandle).1.2,
      hexact front' handle token back' hentries, hspells.ofToken?_eq R.grows]
  intro front' handle token back' hentries
  change restated.tokens.entries = _ at hentries
  rw [R.restated_entries, ← List.append_assoc inserted] at hentries
  rcases append_eq_append_cons hentries with ⟨rest, rfl, -⟩ | ⟨rest, rfl, hrest⟩
  · -- in front of the region nothing has changed
    refine hstays (rest ++ (doomed ++ (moved ++ back))) ?_ (.inl (by simp))
    rw [R.entries]
    simp
  rcases append_eq_append_cons hrest with ⟨rest', hregion, -⟩ | ⟨rest', rfl, hback⟩
  · -- in the region what is known is what the restatement has read
    obtain ⟨region, hall⟩ : ∃ region, inserted.map (fun entry => (entry.1, entry.2, true)) ++
        moved.map (fun entry => (entry.1, entry.2, false)) = region := ⟨_, rfl⟩
    have hrows : region.map (fun entry => (entry.1, entry.2.1)) = rest ++ (handle, token) :: rest' := by
      rw [← hregion, ← hall, List.map_append, List.map_map, List.map_map]
      simp [Function.comp_def]
    obtain ⟨before, after, rfl, rfl, hafter⟩ := List.map_eq_append_iff.1 hrows
    obtain ⟨⟨handle', token', flag⟩, after, rfl, heq, -⟩ := List.map_eq_cons_iff.1 hafter
    obtain ⟨rfl, rfl⟩ := Prod.mk.inj heq
    obtain ⟨reading, hreading, hhandle, hnew⟩ :=
      buffer.exists_reading grown plan.before before after handle' token' flag
    rw [← hall] at hreading
    have hinfo := R.info?_region h hreading
    rw [Reading.site, hhandle, hnew] at hinfo
    rw [hinfo, List.map_append, walk_append, ← hstart, List.map_map]
    rfl
  · -- behind the region both walks have come to the same state
    have hmet := walk_differingTokens (walk plan.before (doomed.map (·.2)))
      (walk plan.before (inserted.map (·.2))) (moved ++ back)
      (by rw [← hmoved]) (by rw [hback]; simp)
    rw [← hmoved] at hmet
    have hwalk : walk .initial ((front ++ (inserted ++ moved ++ rest')).map (·.2)) =
        walk .initial ((front ++ (doomed ++ (moved ++ rest'))).map (·.2)) := by
      simp only [List.map_append, walk_append, ← hstart, hmet]
    rw [hwalk]
    refine hstays back' ?_ (.inr (by rw [hback]; simp))
    rw [R.entries, hback]
    simp

end Restates

end Buffer

end LiveProse
