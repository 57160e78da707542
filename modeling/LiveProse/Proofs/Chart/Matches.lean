import LiveProse.Proofs.Chart.Changes

/-! Counting derivations of matches: only the first one adds a match to a buffer in order, and only
the last one takes it away. -/

namespace LiveProse

namespace Buffer

open Chart

variable {buffer : Buffer} {grammar : Grammar} {fact : Fact} {key : MatchKey}
variable {potentials completes : Bank MatchKey} {beginnings : PairIndex ParsemeKey Site}
variable {partials : PairIndex Nonterminal MatchKey}

/-- A buffer with other matches. -/
def withMatches (buffer : Buffer) (potentials completes : Bank MatchKey) : Buffer :=
  { buffer with potentials, completes }

/-- The fact is that a match is held, in one form or the other. -/
def IsMatch (key : MatchKey) (fact : Fact) : Prop :=
  fact = .potential key ∨ fact = .complete key

theorem IsMatch.places_eq (h : IsMatch key fact) : fact.places = key.ends := by
  rcases h with rfl | rfl <;> rfl

theorem IsMatch.buffer?_eq (h : IsMatch key fact) : fact.buffer? = some key.buffer := by
  rcases h with rfl | rfl <;> rfl

theorem IsMatch.unique {other : MatchKey} (h : IsMatch key fact) (hother : IsMatch other fact) :
    other = key := by
  rcases h with rfl | rfl <;> rcases hother with heq | heq <;> cases heq <;> rfl

/-- Counting a match that stays held, or stays away, changes nothing else. -/
theorem changes_recount {sense : Bool} (h : buffer.Sound grammar)
    (hpotentials : ∀ k, potentials.contains k = buffer.potentials.contains k)
    (hcompletes : ∀ k, completes.contains k = buffer.completes.contains k)
    (hpotential : ∀ k, .potential k ≠ fact → potentials.count k = buffer.potentials.count k)
    (hcomplete : ∀ k, .complete k ≠ fact → completes.count k = buffer.completes.count k) :
    Changes grammar sense fact buffer (buffer.withMatches potentials completes, false) := by
  have hholds : ∀ a, (buffer.withMatches potentials completes).holds a = buffer.holds a := by
    intro a
    cases a with
    | potential k => exact hpotentials k
    | complete k => exact hcompletes k
    | _ => rfl
  refine ⟨⟨h.sites, ?_, h.marked.congr rfl fun _ => rfl, fun k hk => ?_, ?_⟩, rfl,
    fun a _ => hholds a, hpotential, hcomplete, fun hflag => ?_, fun _ => hholds fact⟩
  · exact h.noted.congr rfl (fun _ => rfl) fun a _ _ => hholds a
  · refine h.keyed k ?_
    rwa [← hpotentials, ← hcompletes]
  · exact h.filed.congr rfl (fun _ => rfl) hpotentials hcompletes rfl rfl
  · cases hflag

/-- A buffer in which one match is counted, noted and indexed anew. -/
structure Rematched (fact : Fact) (buffer after : Buffer) : Prop where
  skeleton : after.skeleton = buffer.skeleton
  standing : ∀ site, after.standing site = buffer.standing site
  notes : ∀ a, a ≠ fact → ∀ site, a ∈ after.notes site ↔ a ∈ buffer.notes site
  potentials : ∀ k, .potential k ≠ fact → after.potentials.count k = buffer.potentials.count k
  completes : ∀ k, .complete k ≠ fact → after.completes.count k = buffer.completes.count k

namespace Rematched

variable {after : Buffer}

theorem id (hrematched : Rematched fact buffer after) : after.id = buffer.id :=
  congrArg (·.1) hrematched.skeleton

theorem holds (hrematched : Rematched fact buffer after) {a : Fact} (ha : a ≠ fact) :
    after.holds a = buffer.holds a := by
  refine holds_congr (fun _ => hrematched.notes a ha) hrematched.standing ?_ ?_
  · rintro k rfl
    rw [Bool.eq_iff_iff, Bank.contains_iff_count_pos, Bank.contains_iff_count_pos,
      hrematched.potentials k ha]
  · rintro k rfl
    rw [Bool.eq_iff_iff, Bank.contains_iff_count_pos, Bank.contains_iff_count_pos,
      hrematched.completes k ha]

/-- The buffer is in order again once what is noted, keyed and filed is. -/
theorem changes {sense : Bool} (hrematched : Rematched fact buffer after) (h : buffer.Sound grammar)
    (hturned : buffer.holds fact = !sense ∧ after.holds fact = sense) (hnoted : after.Noted)
    (hkeyed : after.Keyed grammar)
    (hbeginnings : after.parsemeBeginnings.pairs.Nodup ∧ ∀ k site,
      (k, site) ∈ after.parsemeBeginnings.pairs ↔ buffer.TokenUnder k site ∨
        ∃ name, k = .nonterminal name ∧ after.MatchUnder grammar name site)
    (hpartials : after.partialMatches.pairs.Nodup ∧ ∀ wanted k,
      (wanted, k) ∈ after.partialMatches.pairs ↔
        after.potentials.contains k = true ∧ wanted ∈ grammar.needs k) :
    Changes grammar sense fact buffer (after, true) := by
  have htokens (k : ParsemeKey) (site : Site) : after.TokenUnder k site ↔ buffer.TokenUnder k site := by
    simp only [TokenUnder, hrematched.id, hrematched.standing]
  refine ⟨⟨sites_of_skeleton hrematched.skeleton h.sites, hnoted,
    h.marked.congr hrematched.id hrematched.standing, hkeyed, ?_⟩, hrematched.skeleton,
    fun a ha => hrematched.holds ha, hrematched.potentials, hrematched.completes, fun _ => hturned,
    fun hflag => Bool.noConfusion hflag⟩
  refine ⟨hbeginnings.1, fun k site => ?_, hpartials.1, hpartials.2⟩
  rw [hbeginnings.2, htokens]

end Rematched

theorem rematched_annotate
    (hpotential : ∀ k, .potential k ≠ fact → potentials.count k = buffer.potentials.count k)
    (hcomplete : ∀ k, .complete k ≠ fact → completes.count k = buffer.completes.count k) :
    Rematched fact buffer { (buffer.withMatches potentials completes).annotate fact key.ends with
      parsemeBeginnings := beginnings, partialMatches := partials } := by
  refine ⟨?_, standing_annotate key.nodup_ends, fun a ha site => ?_, ?_, ?_⟩
  · exact (skeleton_annotate : ((buffer.withMatches potentials completes).annotate fact
      key.ends).skeleton = _)
  · refine (iff_of_eq (congrArg (a ∈ ·) (notes_annotate key.nodup_ends))).trans ?_
    split_ifs
    · simp only [List.mem_cons, ha, false_or]
      rfl
    · rfl
  · rw [annotate_eq]
    exact hpotential
  · rw [annotate_eq]
    exact hcomplete

theorem rematched_unannotate
    (hpotential : ∀ k, .potential k ≠ fact → potentials.count k = buffer.potentials.count k)
    (hcomplete : ∀ k, .complete k ≠ fact → completes.count k = buffer.completes.count k) :
    Rematched fact buffer { (buffer.withMatches potentials completes).unannotate fact key.ends with
      parsemeBeginnings := beginnings, partialMatches := partials } := by
  refine ⟨?_, standing_unannotate key.nodup_ends, fun a ha site => ?_, ?_, ?_⟩
  · exact (skeleton_unannotate : ((buffer.withMatches potentials completes).unannotate fact
      key.ends).skeleton = _)
  · refine (iff_of_eq (congrArg (a ∈ ·) (notes_unannotate key.nodup_ends))).trans ?_
    split_ifs
    · exact List.mem_erase_of_ne ha
    · rfl
  · rw [unannotate_eq]
    exact hpotential
  · rw [unannotate_eq]
    exact hcomplete

/-- Whether a match is held is told by the matches alone. -/
theorem IsMatch.holds_eq {after : Buffer} (hfact : IsMatch key fact)
    (hpotentials : after.potentials = potentials) (hcompletes : after.completes = completes) :
    after.holds fact = (buffer.withMatches potentials completes).holds fact := by
  rcases hfact with rfl | rfl
  · exact congrArg (·.contains key) hpotentials
  · exact congrArg (·.contains key) hcompletes

/-- The first derivation of a match. -/
theorem changes_gained (h : buffer.Sound grammar) (hfact : IsMatch key fact)
    (hbuffer : key.buffer = buffer.id) (hends : ∀ site ∈ key.ends, buffer.hasRecord site = true)
    (hkey : ∃ production, grammar.get? key.production = some production ∧
      key.slotsFilled ≤ production.arity) (hnot : buffer.holds fact = false)
    (hheld : (buffer.withMatches potentials completes).holds fact = true)
    (hpotential : ∀ k, .potential k ≠ fact → potentials.count k = buffer.potentials.count k)
    (hcomplete : ∀ k, .complete k ≠ fact → completes.count k = buffer.completes.count k)
    (hbeginnings : beginnings.pairs.Nodup ∧ ∀ k site, (k, site) ∈ beginnings.pairs ↔
      buffer.TokenUnder k site ∨ ∃ name, k = .nonterminal name ∧
        (buffer.withMatches potentials completes).MatchUnder grammar name site)
    (hpartials : partials.pairs.Nodup ∧ ∀ wanted k, (wanted, k) ∈ partials.pairs ↔
      potentials.contains k = true ∧ wanted ∈ grammar.needs k) :
    Changes grammar true fact buffer
      ({ (buffer.withMatches potentials completes).annotate fact key.ends with
          parsemeBeginnings := beginnings, partialMatches := partials }, true) := by
  have hrematched : Rematched fact buffer { (buffer.withMatches potentials completes).annotate fact
      key.ends with parsemeBeginnings := beginnings, partialMatches := partials } :=
    rematched_annotate hpotential hcomplete
  generalize hafter : ({ (buffer.withMatches potentials completes).annotate fact key.ends with
    parsemeBeginnings := beginnings, partialMatches := partials } : Buffer) = after at hrematched
  have hnotes (site : Site) : after.notes site = (buffer.annotate fact fact.places).notes site := by
    rw [hfact.places_eq, notes_annotate key.nodup_ends, ← hafter]
    exact notes_annotate key.nodup_ends
  rw [annotate_eq] at hafter
  have hturned : after.holds fact = true := by
    rw [← hheld, ← hafter]
    exact hfact.holds_eq rfl rfl
  have hholds (a : Fact) : after.holds a = true ↔ a = fact ∨ buffer.holds a = true := by
    by_cases ha : a = fact
    · simp [ha, hturned]
    · simp [ha, hrematched.holds ha]
  refine hrematched.changes h ⟨hnot, hturned⟩ ?_ (fun k hk => ?_) ?_ ?_
  · exact h.noted.gain hrematched.id (by rw [hfact.buffer?_eq, hbuffer]) hnot
      (hfact.places_eq ▸ key.nodup_ends) (hfact.places_eq ▸ hends) hnotes hholds
  · rcases hk with hk | hk
    · rcases (hholds (.potential k)).1 hk with heq | hk
      · exact hfact.unique (.inl heq.symm) ▸ hkey
      · exact h.keyed k (.inl hk)
    · rcases (hholds (.complete k)).1 hk with heq | hk
      · exact hfact.unique (.inr heq.symm) ▸ hkey
      · exact h.keyed k (.inr hk)
  · rw [← hafter]
    exact hbeginnings
  · rw [← hafter]
    exact hpartials

/-- The end of the last derivation of a match. -/
theorem changes_lost (h : buffer.Sound grammar) (hfact : IsMatch key fact)
    (hheld : buffer.holds fact = true)
    (hnot : (buffer.withMatches potentials completes).holds fact = false)
    (hpotential : ∀ k, .potential k ≠ fact → potentials.count k = buffer.potentials.count k)
    (hcomplete : ∀ k, .complete k ≠ fact → completes.count k = buffer.completes.count k)
    (hbeginnings : beginnings.pairs.Nodup ∧ ∀ k site, (k, site) ∈ beginnings.pairs ↔
      buffer.TokenUnder k site ∨ ∃ name, k = .nonterminal name ∧
        (buffer.withMatches potentials completes).MatchUnder grammar name site)
    (hpartials : partials.pairs.Nodup ∧ ∀ wanted k, (wanted, k) ∈ partials.pairs ↔
      potentials.contains k = true ∧ wanted ∈ grammar.needs k) :
    Changes grammar false fact buffer
      ({ (buffer.withMatches potentials completes).unannotate fact key.ends with
          parsemeBeginnings := beginnings, partialMatches := partials }, true) := by
  have hrematched : Rematched fact buffer { (buffer.withMatches potentials completes).unannotate fact
      key.ends with parsemeBeginnings := beginnings, partialMatches := partials } :=
    rematched_unannotate hpotential hcomplete
  generalize hafter : ({ (buffer.withMatches potentials completes).unannotate fact key.ends with
    parsemeBeginnings := beginnings, partialMatches := partials } : Buffer) = after at hrematched
  have hnotes (site : Site) : after.notes site = (buffer.unannotate fact fact.places).notes site := by
    rw [hfact.places_eq, notes_unannotate key.nodup_ends, ← hafter]
    exact notes_unannotate key.nodup_ends
  rw [unannotate_eq] at hafter
  have hturned : after.holds fact = false := by
    rw [← hnot, ← hafter]
    exact hfact.holds_eq rfl rfl
  have hholds (a : Fact) : after.holds a = true ↔ a ≠ fact ∧ buffer.holds a = true := by
    by_cases ha : a = fact
    · simp [ha, hturned]
    · simp [ha, hrematched.holds ha]
  refine hrematched.changes h ⟨hheld, hturned⟩ ?_ (fun k hk => ?_) ?_ ?_
  · exact h.noted.lose hrematched.id (hfact.places_eq ▸ key.nodup_ends) hnotes hholds
  · exact h.keyed k (hk.imp (fun hk => ((hholds (.potential k)).1 hk).2)
      fun hk => ((hholds (.complete k)).1 hk).2)
  · rw [← hafter]
    exact hbeginnings
  · rw [← hafter]
    exact hpartials

/-! ### Potential matches -/

theorem addPotential_eq (needs : List Nonterminal) : addPotential needs key buffer =
    if buffer.potentials.contains key then
      (buffer.withMatches (buffer.potentials.acquire key).1 buffer.completes, false)
    else ({ (buffer.withMatches (buffer.potentials.acquire key).1 buffer.completes).annotate
        (.potential key) key.ends with
      parsemeBeginnings := buffer.parsemeBeginnings
      partialMatches := needs.foldl (·.insert · key) buffer.partialMatches }, true) := by
  obtain ⟨records, hrecords⟩ : ∃ records,
      (buffer.withMatches (buffer.potentials.acquire key).1 buffer.completes).annotate
        (.potential key) key.ends =
        { buffer.withMatches (buffer.potentials.acquire key).1 buffer.completes with records } :=
    ⟨_, annotate_eq⟩
  have hcreated : (buffer.potentials.acquire key).2 = !buffer.potentials.contains key := rfl
  have hunfold : addPotential needs key buffer =
      if (buffer.potentials.acquire key).2 then
        ({ (buffer.withMatches (buffer.potentials.acquire key).1 buffer.completes).annotate
            (.potential key) key.ends with
          partialMatches := needs.foldl (·.insert · key)
            ((buffer.withMatches (buffer.potentials.acquire key).1 buffer.completes).annotate
              (.potential key) key.ends).partialMatches }, true)
      else (buffer.withMatches (buffer.potentials.acquire key).1 buffer.completes, false) := rfl
  rw [hunfold, hcreated, hrecords]
  cases buffer.potentials.contains key <;> rfl

theorem changes_addPotential (h : buffer.Sound grammar) (hbuffer : key.buffer = buffer.id)
    (hends : ∀ site ∈ key.ends, buffer.hasRecord site = true)
    (hkey : ∃ production, grammar.get? key.production = some production ∧
      key.slotsFilled ≤ production.arity) :
    Changes grammar true (.potential key) buffer
      (addPotential (grammar.needs key) key buffer) := by
  have hother : ∀ k, Fact.potential k ≠ .potential key →
      (buffer.potentials.acquire key).1.count k = buffer.potentials.count k := by
    intro k hk
    exact Bank.count_acquire_of_ne fun heq => hk (congrArg Fact.potential heq)
  rw [addPotential_eq]
  split_ifs with hheld
  · exact changes_recount h (fun _ => Bank.contains_acquire_of_contains hheld) (fun _ => rfl) hother
      fun _ _ => rfl
  · refine changes_gained h (.inl rfl) hbuffer hends hkey (by simpa [holds] using hheld)
      (Bank.contains_acquire.2 (.inl rfl)) hother (fun _ _ => rfl)
      ⟨h.filed.nodup_beginnings, h.filed.mem_beginnings⟩
      ⟨PairIndex.nodup_insertAll (fun w => w) (fun _ => key) _ h.filed.nodup_partials,
        fun wanted k => ?_⟩
    refine (PairIndex.mem_insertAll (fun w => w) (fun _ => key) _).trans ?_
    rw [h.filed.mem_partials, Bank.contains_acquire]
    constructor
    · rintro (⟨w, hw, heq⟩ | ⟨hk, hw⟩)
      · rw [Prod.mk.injEq] at heq
        exact ⟨.inl heq.2, heq.1 ▸ heq.2 ▸ hw⟩
      · exact ⟨.inr hk, hw⟩
    · rintro ⟨rfl | hk, hw⟩
      · exact .inl ⟨wanted, hw, rfl⟩
      · exact .inr ⟨hk, hw⟩

theorem removePotential_eq (needs : List Nonterminal) : removePotential needs key buffer =
    if (buffer.potentials.release? key).2 = some 0 then
      ({ (buffer.withMatches (buffer.potentials.release? key).1 buffer.completes).unannotate
          (.potential key) key.ends with
        parsemeBeginnings := buffer.parsemeBeginnings
        partialMatches := needs.foldl (·.remove · key) buffer.partialMatches }, true)
    else (buffer.withMatches (buffer.potentials.release? key).1 buffer.completes, false) := by
  obtain ⟨records, hrecords⟩ : ∃ records,
      (buffer.withMatches (buffer.potentials.release? key).1 buffer.completes).unannotate
        (.potential key) key.ends =
        { buffer.withMatches (buffer.potentials.release? key).1 buffer.completes with records } :=
    ⟨_, unannotate_eq⟩
  have hunfold : removePotential needs key buffer =
      if (buffer.potentials.release? key).2 = some 0 then
        ({ (buffer.withMatches (buffer.potentials.release? key).1 buffer.completes).unannotate
            (.potential key) key.ends with
          partialMatches := needs.foldl (·.remove · key)
            ((buffer.withMatches (buffer.potentials.release? key).1 buffer.completes).unannotate
              (.potential key) key.ends).partialMatches }, true)
      else (buffer.withMatches (buffer.potentials.release? key).1 buffer.completes, false) := rfl
  rw [hunfold, hrecords]
  rfl

theorem changes_removePotential (h : buffer.Sound grammar)
    (hcount : 0 < buffer.potentials.count key) :
    Changes grammar false (.potential key) buffer
      (removePotential (grammar.needs key) key buffer) := by
  have hheld := (buffer.potentials.contains_iff_count_pos key).2 hcount
  have hother : ∀ k, Fact.potential k ≠ .potential key →
      (buffer.potentials.release? key).1.count k = buffer.potentials.count k := by
    intro k hk
    exact Bank.count_release?_of_ne fun heq => hk (congrArg Fact.potential heq)
  rw [removePotential_eq]
  split_ifs with hlast
  · have hgone : (buffer.potentials.release? key).1.contains key = false := by
      rw [← Bool.not_eq_true, Bank.contains_release?_of_last hlast]
      simp
    refine changes_lost h (.inl rfl) hheld hgone hother (fun _ _ => rfl)
      ⟨h.filed.nodup_beginnings, h.filed.mem_beginnings⟩
      ⟨PairIndex.nodup_removeAll (fun w => w) (fun _ => key) _ h.filed.nodup_partials,
        fun wanted k => ?_⟩
    refine (PairIndex.mem_removeAll (fun w => w) (fun _ => key) _ h.filed.nodup_partials).trans ?_
    rw [h.filed.mem_partials, Bank.contains_release?_of_last hlast]
    constructor
    · rintro ⟨hnot, hk, hw⟩
      refine ⟨⟨?_, hk⟩, hw⟩
      rintro rfl
      exact hnot wanted hw rfl
    · rintro ⟨⟨hne, hk⟩, hw⟩
      refine ⟨fun w _ heq => hne ?_, hk, hw⟩
      exact congrArg Prod.snd heq
  · exact changes_recount h (fun _ => Bank.contains_release?_of_more hcount hlast) (fun _ => rfl) hother
      fun _ _ => rfl

/-! ### Complete matches -/

theorem addComplete_eq (result : Nonterminal) : addComplete result key buffer =
    if buffer.completes.contains key then
      (buffer.withMatches buffer.potentials (buffer.completes.acquire key).1, false)
    else ({ (buffer.withMatches buffer.potentials (buffer.completes.acquire key).1).annotate
        (.complete key) key.ends with
      parsemeBeginnings :=
        buffer.parsemeBeginnings.insert (.nonterminal result.name) key.beginningSite
      partialMatches := buffer.partialMatches }, true) := by
  obtain ⟨records, hrecords⟩ : ∃ records,
      (buffer.withMatches buffer.potentials (buffer.completes.acquire key).1).annotate
        (.complete key) key.ends =
        { buffer.withMatches buffer.potentials (buffer.completes.acquire key).1 with records } :=
    ⟨_, annotate_eq⟩
  have hcreated : (buffer.completes.acquire key).2 = !buffer.completes.contains key := rfl
  have hunfold : addComplete result key buffer =
      if (buffer.completes.acquire key).2 then
        ({ (buffer.withMatches buffer.potentials (buffer.completes.acquire key).1).annotate
            (.complete key) key.ends with
          parsemeBeginnings :=
            ((buffer.withMatches buffer.potentials (buffer.completes.acquire key).1).annotate
              (.complete key) key.ends).parsemeBeginnings.insert
                (.nonterminal result.name) key.beginningSite }, true)
      else (buffer.withMatches buffer.potentials (buffer.completes.acquire key).1, false) := rfl
  rw [hunfold, hcreated, hrecords]
  cases buffer.completes.contains key <;> rfl

theorem changes_addComplete {production : Production} (h : buffer.Sound grammar)
    (hbuffer : key.buffer = buffer.id)
    (hends : ∀ site ∈ key.ends, buffer.hasRecord site = true)
    (hget : grammar.get? key.production = some production)
    (hslots : key.slotsFilled ≤ production.arity) :
    Changes grammar true (.complete key) buffer (addComplete production.result key buffer) := by
  have hother : ∀ k, Fact.complete k ≠ .complete key →
      (buffer.completes.acquire key).1.count k = buffer.completes.count k := by
    intro k hk
    exact Bank.count_acquire_of_ne fun heq => hk (congrArg Fact.complete heq)
  rw [addComplete_eq]
  split_ifs with hheld
  · exact changes_recount h (fun _ => rfl) (fun _ => Bank.contains_acquire_of_contains hheld)
      (fun _ _ => rfl) hother
  · refine changes_gained h (.inr rfl) hbuffer hends ⟨production, hget, hslots⟩
      (by simpa [holds] using hheld) (Bank.contains_acquire.2 (.inl rfl)) (fun _ _ => rfl) hother
      ⟨PairIndex.nodup_insert h.filed.nodup_beginnings _ _, fun k site => ?_⟩
      ⟨h.filed.nodup_partials, h.filed.mem_partials⟩
    rw [PairIndex.mem_insert, h.filed.mem_beginnings, Prod.mk.injEq]
    constructor
    · rintro (⟨rfl, rfl⟩ | htoken | ⟨name, rfl, inner, p, hinner, hsite, hp, hname⟩)
      · exact .inr ⟨_, rfl, key, production, Bank.contains_acquire.2 (.inl rfl), rfl, hget, rfl⟩
      · exact .inl htoken
      · exact .inr ⟨name, rfl, inner, p, Bank.contains_acquire.2 (.inr hinner), hsite, hp, hname⟩
    · rintro (htoken | ⟨name, rfl, inner, p, hinner, hsite, hp, hname⟩)
      · exact .inr (.inl htoken)
      · rcases Bank.contains_acquire.1 hinner with rfl | hinner
        · rw [hget, Option.some.injEq] at hp
          exact .inl ⟨by rw [hp, hname], hsite.symm⟩
        · exact .inr (.inr ⟨name, rfl, inner, p, hinner, hsite, hp, hname⟩)

/-- Whether another match with a result of the name begins where a match does. -/
def others (grammar : Grammar) (key : MatchKey) (name : Word) (buffer : Buffer) : Bool :=
  (buffer.factsOfClass key.beginningSite .complete).any fun fact => match fact with
    | .complete other => other.beginning = key.beginning &&
        (grammar.get? other.production).any fun production => production.result.name = name
    | _ => false

theorem others_iff {name : Word} : buffer.others grammar key name = true ↔
    ∃ other production, .complete other ∈ buffer.notes key.beginningSite ∧
      other.beginningSite = key.beginningSite ∧
      grammar.get? other.production = some production ∧ production.result.name = name := by
  simp only [others, List.any_eq_true, mem_factsOfClass]
  constructor
  · rintro ⟨fact, ⟨hmem, hclass⟩, hfact⟩
    cases fact with
    | complete other =>
      simp only [Bool.and_eq_true, decide_eq_true_eq, Option.any_eq_true] at hfact
      obtain ⟨hbeginning, production, hget, hname⟩ := hfact
      exact ⟨other, production, hmem, congrArg Site.token hbeginning, hget, hname⟩
    | _ => cases hclass
  · rintro ⟨other, production, hmem, hbeginning, hget, hname⟩
    refine ⟨_, ⟨hmem, rfl⟩, ?_⟩
    simp only [MatchKey.beginningSite, Site.token.injEq] at hbeginning
    simp [hbeginning, hget, hname]

theorem removeComplete_eq {production : Production}
    (hget : grammar.get? key.production = some production) : removeComplete grammar key buffer =
    if (buffer.completes.release? key).2 = some 0 then
      ({ (buffer.withMatches buffer.potentials (buffer.completes.release? key).1).unannotate
          (.complete key) key.ends with
        parsemeBeginnings :=
          if ((buffer.withMatches buffer.potentials (buffer.completes.release? key).1).unannotate
            (.complete key) key.ends).others grammar key production.result.name
          then buffer.parsemeBeginnings
          else buffer.parsemeBeginnings.remove (.nonterminal production.result.name)
            key.beginningSite
        partialMatches := buffer.partialMatches }, true)
    else (buffer.withMatches buffer.potentials (buffer.completes.release? key).1, false) := by
  obtain ⟨records, hrecords⟩ : ∃ records,
      (buffer.withMatches buffer.potentials (buffer.completes.release? key).1).unannotate
        (.complete key) key.ends =
        { buffer.withMatches buffer.potentials (buffer.completes.release? key).1 with records } :=
    ⟨_, unannotate_eq⟩
  generalize hunannotated : (buffer.withMatches buffer.potentials
    (buffer.completes.release? key).1).unannotate (.complete key) key.ends = unannotated at hrecords
  have hunfold : removeComplete grammar key buffer =
      if (buffer.completes.release? key).2 = some 0 then
        if unannotated.others grammar key production.result.name then (unannotated, true)
        else ({ unannotated with
          parsemeBeginnings := unannotated.parsemeBeginnings.remove
            (.nonterminal production.result.name) key.beginningSite }, true)
      else (buffer.withMatches buffer.potentials (buffer.completes.release? key).1, false) := by
    rw [← hunannotated, removeComplete, hget]
    rfl
  rw [hunfold]
  split_ifs with hlast hothers
  · rw [hrecords]
    rfl
  · rw [hrecords]
    rfl
  · rfl

/-! What is left at the site of a match that is lost. -/

section Left

variable {production : Production}

/-- The notes that are left tell which matches are left. -/
theorem others_unannotate (h : buffer.Noted)
    (hleft : ∀ k, completes.contains k = true ↔ k ≠ key ∧ buffer.completes.contains k = true)
    {name : Word} :
    ((buffer.withMatches potentials completes).unannotate (.complete key) key.ends).others grammar key
      name = true ↔
      (buffer.withMatches potentials completes).MatchUnder grammar name key.beginningSite := by
  rw [others_iff, notes_unannotate key.nodup_ends, if_pos key.beginningSite_mem_ends]
  refine exists_congr fun other => exists_congr fun p => ?_
  change Fact.complete other ∈ (buffer.notes _).erase _ ∧ _ ↔ completes.contains other = true ∧ _
  rw [(h.nodup _).mem_erase_iff, h.mem, hleft, ne_eq, Fact.complete.injEq, and_assoc, and_assoc,
    and_assoc]
  refine and_congr_right fun _ => and_congr_right fun _ => ?_
  rw [and_iff_right_of_imp]
  rintro ⟨hbeginning, -⟩
  rw [← hbeginning]
  exact other.beginningSite_mem_ends

/-- Of the names and sites of matches, only those of the match that is lost may be without one. -/
theorem matchUnder_of_ne (hget : grammar.get? key.production = some production)
    (hleft : ∀ k, completes.contains k = true ↔ k ≠ key ∧ buffer.completes.contains k = true)
    {name : Word} {site : Site} (hne : ¬(name = production.result.name ∧ site = key.beginningSite)) :
    (buffer.withMatches potentials completes).MatchUnder grammar name site ↔
      buffer.MatchUnder grammar name site := by
  refine exists_congr fun inner => exists_congr fun p => ?_
  change completes.contains inner = true ∧ _ ↔ _
  rw [hleft, and_assoc, and_iff_right_of_imp]
  rintro ⟨-, hsite, hp, hname⟩ rfl
  rw [hget, Option.some.injEq] at hp
  exact hne ⟨by rw [← hname, hp], hsite.symm⟩

theorem TokenUnder.ne_nonterminal {k : ParsemeKey} {site : Site} (h : buffer.TokenUnder k site)
    (name : Word) : k ≠ .nonterminal name := by
  rintro rfl
  obtain ⟨_, _, _, _, _, _, _, hkey⟩ := h
  exact ParsemeKey.nonterminal_not_mem_ofToken hkey

/-- The name of a match that is lost stays filed at its site exactly as long as another match of the
name is left there. -/
theorem mem_beginnings_of_lost (h : buffer.Filed grammar)
    (hget : grammar.get? key.production = some production)
    (hheld : buffer.completes.contains key = true)
    (hleft : ∀ k, completes.contains k = true ↔ k ≠ key ∧ buffer.completes.contains k = true)
    {others : Bool} (hothers : others = true ↔ (buffer.withMatches potentials completes).MatchUnder
      grammar production.result.name key.beginningSite) (k : ParsemeKey) (site : Site) :
    (k, site) ∈ (if others then buffer.parsemeBeginnings else buffer.parsemeBeginnings.remove
        (.nonterminal production.result.name) key.beginningSite).pairs ↔
      buffer.TokenUnder k site ∨ ∃ name, k = .nonterminal name ∧
        (buffer.withMatches potentials completes).MatchUnder grammar name site := by
  have hmine : buffer.MatchUnder grammar production.result.name key.beginningSite :=
    ⟨key, production, hheld, rfl, hget, rfl⟩
  cases others with
  | true =>
    rw [if_pos rfl, h.mem_beginnings]
    refine or_congr_right (exists_congr fun name => and_congr_right fun _ => ?_)
    by_cases hmatch : name = production.result.name ∧ site = key.beginningSite
    · rw [hmatch.1, hmatch.2]
      exact iff_of_true hmine (hothers.1 rfl)
    · exact (matchUnder_of_ne hget hleft hmatch).symm
  | false =>
    rw [if_neg Bool.false_ne_true, PairIndex.mem_remove h.nodup_beginnings, h.mem_beginnings, ne_eq,
      Prod.mk.injEq]
    constructor
    · rintro ⟨hnot, htoken | ⟨name, rfl, hmatch⟩⟩
      · exact .inl htoken
      · refine .inr ⟨name, rfl, (matchUnder_of_ne hget hleft ?_).2 hmatch⟩
        rintro ⟨rfl, rfl⟩
        exact hnot ⟨rfl, rfl⟩
    · rintro (htoken | ⟨name, rfl, hmatch⟩)
      · exact ⟨fun heq => htoken.ne_nonterminal _ heq.1, .inl htoken⟩
      · have hne : ¬(name = production.result.name ∧ site = key.beginningSite) := by
          rintro ⟨rfl, rfl⟩
          exact Bool.false_ne_true (hothers.2 hmatch)
        refine ⟨?_, .inr ⟨name, rfl, (matchUnder_of_ne hget hleft hne).1 hmatch⟩⟩
        rintro ⟨hname, hsite⟩
        exact hne ⟨ParsemeKey.nonterminal.inj hname, hsite⟩

end Left

theorem changes_removeComplete (h : buffer.Sound grammar)
    (hcount : 0 < buffer.completes.count key) :
    Changes grammar false (.complete key) buffer (removeComplete grammar key buffer) := by
  have hheld := (buffer.completes.contains_iff_count_pos key).2 hcount
  obtain ⟨production, hget, -⟩ := h.keyed key (.inr hheld)
  have hother : ∀ k, Fact.complete k ≠ .complete key →
      (buffer.completes.release? key).1.count k = buffer.completes.count k := by
    intro k hk
    exact Bank.count_release?_of_ne fun heq => hk (congrArg Fact.complete heq)
  rw [removeComplete_eq hget]
  by_cases hlast : (buffer.completes.release? key).2 = some 0
  · rw [if_pos hlast]
    have hleft (k : MatchKey) : (buffer.completes.release? key).1.contains k = true ↔
        k ≠ key ∧ buffer.completes.contains k = true := Bank.contains_release?_of_last hlast
    have hgone : (buffer.completes.release? key).1.contains key = false := by
      rw [← Bool.not_eq_true, hleft]
      simp
    refine changes_lost h (.inr rfl) hheld hgone (fun _ _ => rfl) hother ⟨?_, mem_beginnings_of_lost
      h.filed hget hheld hleft (others_unannotate h.noted hleft)⟩
      ⟨h.filed.nodup_partials, h.filed.mem_partials⟩
    split_ifs
    · exact h.filed.nodup_beginnings
    · exact PairIndex.nodup_remove h.filed.nodup_beginnings _ _
  · rw [if_neg hlast]
    exact changes_recount h (fun _ => rfl) (fun _ => Bank.contains_release?_of_more hcount hlast)
      (fun _ _ => rfl) hother

end Buffer

end LiveProse
