import LiveProse.Proofs.Chart.Agreement
import LiveProse.Proofs.Sequence.Positions

/-! The order of the sites of a buffer, and their chain: an edge leads from every recorded site to the next one, every
recorded token is available, and every recorded site has the sense of a sentence end that its record
asks for. -/

namespace LiveProse

section Pairs

variable {α : Type} {l front back : List α} {a b : α}

/-- Which element of a row comes after which. -/
def pairs (l : List α) : List (α × α) := l.zip l.tail

theorem pairs_cons_cons : pairs (a :: b :: l) = (a, b) :: pairs (b :: l) := rfl

/-- A row falls into two that share an element. -/
theorem pairs_append_cons (front : List α) (a : α) (back : List α) :
    pairs (front ++ a :: back) = pairs (front ++ [a]) ++ pairs (a :: back) := by
  induction front with
  | nil => rfl
  | cons b front ih =>
    cases front with
    | nil => rfl
    | cons c front =>
      simp only [List.cons_append, pairs_cons_cons] at ih ⊢
      rw [ih]

theorem mem_pairs_append {first last : α} {middle : List α} {pair : α × α} :
    pair ∈ pairs (front ++ first :: (middle ++ last :: back)) ↔ pair ∈ pairs (front ++ [first]) ∨
      pair ∈ pairs (first :: (middle ++ [last])) ∨ pair ∈ pairs (last :: back) := by
  have hrest : pairs (first :: (middle ++ last :: back)) =
      pairs (first :: (middle ++ [last])) ++ pairs (last :: back) :=
    pairs_append_cons (first :: middle) last back
  rw [pairs_append_cons front, hrest, List.mem_append, List.mem_append]

theorem mem_of_mem_pairs (h : (a, b) ∈ pairs l) : a ∈ l ∧ b ∈ l :=
  ⟨(List.of_mem_zip h).1, List.mem_of_mem_tail (List.of_mem_zip h).2⟩

/-- The last element is followed by none. -/
theorem fst_mem_of_mem_pairs {last : α} (h : (a, b) ∈ pairs (l ++ [last])) : a ∈ l := by
  induction l with
  | nil => cases h
  | cons c l ih =>
    cases l with
    | nil =>
      obtain rfl := (Prod.mk.inj (List.mem_singleton.1 h)).1
      exact List.mem_cons_self
    | cons d l =>
      simp only [List.cons_append, pairs_cons_cons, List.mem_cons, Prod.mk.injEq] at h
      rcases h with ⟨rfl, -⟩ | h
      · exact List.mem_cons_self
      · exact List.mem_cons_of_mem _ (ih h)

theorem rel_of_mem_pairs {R : α → α → Prop} (hl : l.Pairwise R) (h : (a, b) ∈ pairs l) : R a b := by
  induction l with
  | nil => cases h
  | cons c l ih =>
    cases l with
    | nil => cases h
    | cons d l =>
      rcases List.mem_cons.1 h with heq | h
      · obtain ⟨rfl, rfl⟩ := Prod.mk.inj heq
        exact List.rel_of_pairwise_cons hl List.mem_cons_self
      · exact ih (List.Pairwise.of_cons hl) h

/-- No element of an increasing row lies between two neighbours. -/
theorem not_between_of_mem_pairs {f : α → ℕ} {c : α} (hl : l.Pairwise fun a b => f a < f b)
    (h : (a, b) ∈ pairs l) (hc : c ∈ l) : c = a ∨ f c < f a ∨ f b ≤ f c := by
  induction l with
  | nil => cases h
  | cons d l ih =>
    cases l with
    | nil => cases h
    | cons e l =>
      rcases List.mem_cons.1 h with heq | h
      · obtain ⟨rfl, rfl⟩ := Prod.mk.inj heq
        rcases List.mem_cons.1 hc with rfl | hc
        · exact .inl rfl
        rcases List.mem_cons.1 hc with rfl | hc
        · exact .inr (.inr (Nat.le_refl _))
        · exact .inr (.inr (List.rel_of_pairwise_cons (List.Pairwise.of_cons hl) hc).le)
      · have hrest : (a, b) ∈ pairs (e :: l) := h
        rcases List.mem_cons.1 hc with rfl | hc
        · exact .inr (.inl (List.rel_of_pairwise_cons hl (mem_of_mem_pairs hrest).1))
        · exact ih (List.Pairwise.of_cons hl) hrest hc

end Pairs

/-- The sense of the sentence end at a recorded site: the sentinels end sentences. -/
def Site.endsSentence (info : SiteInfo) : Site → Bool
  | .token _ => info.traits.sentenceEnd
  | .start | .finish => true

namespace Buffer

variable {buffer other : Buffer} {observed seen : Fact → Bool}

/-- The order of the sites of a buffer. -/
def position (buffer : Buffer) : Site → ℕ
  | .start => 0
  | .token handle => buffer.tokens.handles.idxOf handle + 1
  | .finish => buffer.tokens.handles.length + 2

/-- Records are those of the sentinels and of tokens that are there. -/
structure Placed (buffer : Buffer) : Prop where
  tokens : ∀ S, buffer.tokens.Sound S
  live : ∀ handle, buffer.hasRecord (.token handle) = true → handle ∈ buffer.tokens.handles
  start : buffer.hasRecord .start = true
  finish : buffer.hasRecord .finish = true

/-- What is known about a site that has a record. -/
def info? (buffer : Buffer) (site : Site) : Option SiteInfo :=
  (buffer.record? site).map (·.info)

theorem isSome_info? (buffer : Buffer) (site : Site) :
    (buffer.info? site).isSome = buffer.hasRecord site := by
  rw [info?, Option.isSome_map]
  rfl

/-- The recorded sites in their order. -/
def path (buffer : Buffer) : List Site :=
  .start :: ((buffer.tokens.handles.map Site.token).filter buffer.hasRecord ++ [.finish])

/-- The places of tokens that have a record. -/
def recordedIn (buffer : Buffer) (row : List (Handle × Token)) : List Site :=
  (row.map fun (handle, _) => Site.token handle).filter buffer.hasRecord

theorem mem_recordedIn {row : List (Handle × Token)} {site : Site} : site ∈ buffer.recordedIn row ↔
    (∃ handle ∈ row.map (·.1), site = .token handle) ∧ buffer.hasRecord site = true := by
  rw [recordedIn, List.mem_filter, List.mem_map]
  refine and_congr_left fun _ => ?_
  constructor
  · rintro ⟨entry, hentry, rfl⟩
    exact ⟨entry.1, List.mem_map_of_mem hentry, rfl⟩
  · rintro ⟨handle, hhandle, rfl⟩
    obtain ⟨entry, hentry, rfl⟩ := List.mem_map.1 hhandle
    exact ⟨entry, hentry, rfl⟩

theorem recordedIn_append (row more : List (Handle × Token)) :
    buffer.recordedIn (row ++ more) = buffer.recordedIn row ++ buffer.recordedIn more := by
  rw [recordedIn, List.map_append, List.filter_append]
  rfl

theorem path_eq (buffer : Buffer) :
    buffer.path = .start :: (buffer.recordedIn buffer.tokens.entries ++ [.finish]) := by
  rw [path, Sequence.handles, List.map_map]
  rfl

/-- The sites of the path have a record. -/
theorem hasRecord_of_mem_path (h : buffer.Placed) {site : Site} (hsite : site ∈ buffer.path) :
    buffer.hasRecord site = true := by
  rcases List.mem_cons.1 hsite with rfl | hsite
  · exact h.start
  rcases List.mem_append.1 hsite with hsite | hsite
  · exact (List.mem_filter.1 hsite).2
  · exact List.mem_singleton.1 hsite ▸ h.finish

/-- The path goes through every site that has a record. -/
theorem mem_path_of_hasRecord (h : buffer.Placed) {site : Site} (hsite : buffer.hasRecord site = true) :
    site ∈ buffer.path := by
  cases site with
  | start => exact List.mem_cons_self
  | finish => exact List.mem_cons_of_mem _ (List.mem_append_right _ (List.mem_singleton_self _))
  | token handle =>
    have hmem : Site.token handle ∈ buffer.tokens.handles.map Site.token :=
      List.mem_map_of_mem (h.live handle hsite)
    exact List.mem_cons_of_mem _ (List.mem_append_left _ (List.mem_filter.2 ⟨hmem, hsite⟩))

/-- The path leads on in the order of the sites. -/
theorem pairwise_path (h : buffer.tokens.handles.Nodup) :
    buffer.path.Pairwise fun a b => buffer.position a < buffer.position b := by
  have hsites : (Site.start :: (buffer.tokens.handles.map Site.token ++ [.finish])).Pairwise fun a b =>
      buffer.position a < buffer.position b := by
    rw [List.pairwise_cons, List.pairwise_append, List.pairwise_map]
    refine ⟨fun site hsite => ?_, ?_, List.pairwise_singleton _ _, fun site hsite last hlast => ?_⟩
    · rcases List.mem_append.1 hsite with hsite | hsite
      · obtain ⟨handle, -, rfl⟩ := List.mem_map.1 hsite
        exact Nat.succ_pos _
      · rw [List.mem_singleton.1 hsite]
        exact Nat.succ_pos _
    · rw [List.pairwise_iff_getElem]
      intro i j hi hj hlt
      change List.idxOf _ _ + 1 < List.idxOf _ _ + 1
      rw [h.idxOf_getElem, h.idxOf_getElem]
      exact Nat.succ_lt_succ hlt
    · obtain ⟨handle, hhandle, rfl⟩ := List.mem_map.1 hsite
      rw [List.mem_singleton.1 hlast]
      have hlt := List.idxOf_lt_length_of_mem hhandle
      change _ + 1 < _ + 2
      omega
  exact hsites.sublist ((List.filter_sublist.append_right _).cons_cons _)

/-- The observations about a buffer make up the chain of its recorded sites. -/
structure Chained (observed : Fact → Bool) (buffer : Buffer) : Prop where
  edges : ∀ source target,
    observed (.next buffer.id source target) = true ↔ (source, target) ∈ pairs buffer.path
  available : ∀ handle,
    observed (.available buffer.id handle) = true ↔ buffer.hasRecord (.token handle) = true
  endings : ∀ site positive, observed (.endOfSentence buffer.id site positive) = true ↔
    ∃ info, buffer.info? site = some info ∧ site.endsSentence info = positive

theorem hasRecord_of_info? (h : other.info? = buffer.info?) : other.hasRecord = buffer.hasRecord := by
  funext site
  rw [← isSome_info?, h, isSome_info?]

theorem Chained.congr (hchained : buffer.Chained observed) (hid : other.id = buffer.id)
    (htokens : other.tokens = buffer.tokens) (hinfo : other.info? = buffer.info?)
    (hobserved : ∀ fact, fact.buffer? = some buffer.id → Chart.kind fact ≠ .deduction →
      seen fact = observed fact) : other.Chained seen := by
  have hrecords := hasRecord_of_info? hinfo
  have hpath : other.path = buffer.path := by rw [path, path, htokens, hrecords]
  refine ⟨fun source target => ?_, fun handle => ?_, fun site positive => ?_⟩
  · rw [hid, hpath, hobserved _ rfl FactKind.noConfusion]
    exact hchained.edges source target
  · rw [hid, hrecords, hobserved _ rfl FactKind.noConfusion]
    exact hchained.available handle
  · rw [hid, hinfo, hobserved _ rfl FactKind.noConfusion]
    exact hchained.endings site positive

theorem info?_eq_lookup (buffer : Buffer) (site : Site) :
    buffer.info? site =
      (buffer.records.map fun (site, record) => (site, record.info)).lookup site :=
  (lookup_map_snd (fun (_ : Site) (record : SiteRecord) => record.info) buffer.records site).symm

theorem info?_of_skeleton (h : other.skeleton = buffer.skeleton) : other.info? = buffer.info? := by
  funext site
  rw [info?_eq_lookup, info?_eq_lookup]
  exact congrArg (fun framed => framed.2.2.2.lookup site) h

end Buffer

namespace Chart

variable {chart s t : Chart} {id : BufferId} {buffer : Buffer}

theorem info_of_buffer? (hbuffer : chart.buffer? id = some buffer) (site : Site) :
    chart.info id site = (buffer.info? site).getD .sentinel := by
  rw [info, record?, hbuffer]
  rfl

/-- Every buffer is a chain of its recorded sites. -/
def Chained (chart : Chart) : Prop :=
  ∀ id buffer, chart.buffer? id = some buffer → buffer.Chained chart.holds

theorem exists_buffer?_of_skeleton (h : s.skeleton.2.2 = t.skeleton.2.2)
    (hbuffer : t.buffer? id = some buffer) :
    ∃ old, s.buffer? id = some old ∧ buffer.skeleton = old.skeleton := by
  have hsome := find?_skeleton s id
  rw [h, find?_skeleton t, hbuffer] at hsome
  obtain ⟨old, hold, heq⟩ := Option.map_eq_some_iff.1 hsome.symm
  exact ⟨old, hold, heq.symm⟩

theorem Chained.congr (hchained : s.Chained) (h : s.skeleton.2.2 = t.skeleton.2.2)
    (hholds : ∀ fact, fact.buffer? ≠ none → kind fact ≠ .deduction → t.holds fact = s.holds fact) :
    t.Chained := by
  intro id buffer hbuffer
  obtain ⟨old, hold, heq⟩ := exists_buffer?_of_skeleton h hbuffer
  refine (hchained id old hold).congr (congrArg (·.1) heq) (congrArg (·.2.2.1) heq)
    (Buffer.info?_of_skeleton heq) fun fact hid hkind => hholds fact ?_ hkind
  rw [hid]
  exact Option.some_ne_none _

end Chart

end LiveProse
