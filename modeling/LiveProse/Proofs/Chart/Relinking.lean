import LiveProse.Proofs.Chart.Renewal
import LiveProse.Proofs.Chart.Restatement

/-! How an edit links the sites of a buffer anew. What is known about a site of the changed region is
what its reading says now, and about any other site what was known before; so the path through the
recorded sites stays as it was on both sides of the region, and inside it is the chain of the edit. -/

namespace LiveProse

namespace Buffer

variable {buffer restated : Buffer} {plan : RelexPlan} {vocabulary grown : Vocabulary}
variable {changes : Restatement} {front doomed inserted moved back row : List (Handle × Token)}
variable {site : Site} {reading : Reading}

theorem mem_readings {before : LexicalState} {region : List (Handle × Token × Bool)}
    (h : reading ∈ buffer.readings vocabulary before region) :
    ∃ token inserted, (reading.handle, token, inserted) ∈ region ∧
      reading.old = if inserted then none else buffer.info? reading.site := by
  induction region generalizing before with
  | nil => cases h
  | cons entry region ih =>
    obtain ⟨handle, token, inserted⟩ := entry
    rcases List.mem_cons.1 h with rfl | h
    · exact ⟨token, inserted, List.mem_cons_self, rfl⟩
    · obtain ⟨token', inserted', hmem, hold⟩ := ih h
      exact ⟨token', inserted', List.mem_cons_of_mem _ hmem, hold⟩

theorem map_handle_region (buffer : Buffer) (vocabulary : Vocabulary) (before : LexicalState)
    (inserted moved : List (Handle × Token)) :
    (buffer.regionReadings vocabulary before inserted moved).map (·.handle) =
      (inserted ++ moved).map (·.1) := by
  rw [regionReadings, map_handle_readings]
  simp [Function.comp_def]

namespace Restates

variable (R : Restates buffer plan vocabulary restated grown changes front doomed inserted moved back)
include R

theorem id_renewed : (restated.renewed changes).id = buffer.id := by
  rw [R.same]
  rfl

theorem nodup_before (h : buffer.Placed) :
    ((front ++ (doomed ++ (moved ++ back))).map (·.1)).Nodup := by
  have hnodup := (h.tokens Token.codepointSummary).named.nodup_handles
  rwa [Sequence.handles, R.entries] at hnodup

theorem nodup_after : ((front ++ (inserted ++ (moved ++ back))).map (·.1)).Nodup := by
  have hnodup := (R.tokens Token.codepointSummary).named.nodup_handles
  rwa [Sequence.handles, R.restated_entries] at hnodup

/-- What was known about the sites of the region is in their readings. -/
theorem old_eq (h : buffer.Placed)
    (hreading : reading ∈ buffer.regionReadings grown plan.before inserted moved) :
    reading.old = buffer.info? reading.site := by
  obtain ⟨token, flag, hmem, hold⟩ := mem_readings hreading
  cases flag with
  | false => exact hold
  | true =>
    have hinserted : reading.handle ∈ inserted.map (·.1) := by
      rcases List.mem_append.1 hmem with hmem | hmem
      · obtain ⟨entry, hentry, heq⟩ := List.mem_map.1 hmem
        exact List.mem_map.2 ⟨entry, hentry, congrArg (·.1) heq⟩
      · obtain ⟨entry, -, heq⟩ := List.mem_map.1 hmem
        cases congrArg (·.2.2) heq
    obtain ⟨entry, hentry, heq⟩ := List.mem_map.1 hinserted
    have hnone : buffer.info? reading.site = none := by
      rw [← Option.not_isSome_iff_eq_none, isSome_info?]
      exact fun hrecord => R.unnamed entry hentry (heq ▸ h.live _ hrecord)
    rw [hnone]
    exact hold

/-! ### Which records go and come -/

omit R in
theorem mem_region (hreading : reading ∈ buffer.regionReadings grown plan.before inserted moved) :
    reading.handle ∈ (inserted ++ moved).map (·.1) :=
  map_handle_region buffer grown plan.before inserted moved ▸ List.mem_map_of_mem hreading

theorem nodup_region :
    ((buffer.regionReadings grown plan.before inserted moved).map (·.handle)).Nodup := by
  rw [map_handle_region]
  refine R.nodup_after.sublist (List.Sublist.map _ ?_)
  exact ((List.sublist_append_left moved back).append_left inserted).trans
    (List.sublist_append_right front _)

/-- The tokens of the region did not make way. -/
theorem not_mem_doomed (h : buffer.Placed)
    (hreading : reading ∈ buffer.regionReadings grown plan.before inserted moved) :
    reading.handle ∉ doomed.map (·.1) := by
  intro hdoomed
  have hmem := mem_region hreading
  rw [List.map_append] at hmem
  rcases List.mem_append.1 hmem with hmem | hmem
  · obtain ⟨entry, hentry, heq⟩ := List.mem_map.1 hmem
    refine R.unnamed entry hentry ?_
    rw [heq, Sequence.handles, R.entries]
    simp only [List.map_append, List.mem_append]
    exact .inr (.inl hdoomed)
  · have hnodup := R.nodup_before h
    simp only [List.map_append, List.nodup_append'] at hnodup
    exact hnodup.2.1.2.2 hdoomed (List.mem_append_left _ hmem)

theorem mem_retired : site ∈ changes.retired ↔
    site ∈ buffer.recordedIn doomed ∨
      ∃ reading ∈ buffer.regionReadings grown plan.before inserted moved,
        reading.isRetired = true ∧ reading.site = site := by
  rw [R.retired_eq, List.mem_append, List.mem_map]
  refine or_congr_right (exists_congr fun reading => ?_)
  rw [List.mem_filter, and_assoc]

theorem mem_fresh {handle : Handle} {info : SiteInfo} : (handle, info) ∈ changes.fresh ↔
    ∃ reading ∈ buffer.regionReadings grown plan.before inserted moved,
      reading.handle = handle ∧ reading.old ≠ reading.new ∧ reading.new = some info := by
  rw [R.fresh_eq, List.mem_filterMap]
  refine exists_congr fun reading => and_congr_right fun _ => ?_
  unfold Reading.fresh?
  split_ifs with h
  · simp [h]
  · simp only [Option.map_eq_some_iff, Prod.mk.injEq]
    constructor
    · rintro ⟨info', hnew, rfl, rfl⟩
      exact ⟨rfl, h, hnew⟩
    · rintro ⟨rfl, -, hnew⟩
      exact ⟨info, hnew, rfl, rfl⟩

theorem nodup_fresh : (changes.fresh.map (·.1)).Nodup := by
  have hsublist (readings : List Reading) :
      ((readings.filterMap (·.fresh?)).map (·.1)).Sublist (readings.map (·.handle)) := by
    induction readings with
    | nil => exact List.Sublist.refl _
    | cons reading readings ih =>
      rw [List.filterMap_cons]
      cases hfresh : reading.fresh? with
      | none => exact ih.cons _
      | some entry =>
        have heq : entry.1 = reading.handle := by
          unfold Reading.fresh? at hfresh
          split_ifs at hfresh
          obtain ⟨info, -, rfl⟩ := Option.map_eq_some_iff.1 hfresh
          rfl
        simp only [List.map_cons, heq]
        exact ih.cons_cons _
  rw [R.fresh_eq]
  exact R.nodup_region.sublist (hsublist _)

/-- A site that needs a new record has none or an old one that goes. -/
theorem retired_of_fresh (h : buffer.Placed) {handle : Handle} {info : SiteInfo}
    (hfresh : (handle, info) ∈ changes.fresh) :
    .token handle ∈ changes.retired ∨ buffer.hasRecord (.token handle) = false := by
  obtain ⟨reading, hreading, rfl, hne, -⟩ := R.mem_fresh.1 hfresh
  have hold := R.old_eq h hreading
  cases hsome : reading.old with
  | none =>
    refine .inr ?_
    rw [← isSome_info?, ← Reading.site, ← hold, hsome]
    rfl
  | some old =>
    refine .inl (R.mem_retired.2 (.inr ⟨reading, hreading, ?_, rfl⟩))
    rw [Reading.isRetired, hsome]
    simpa [hsome] using hne

/-- Each site of the region is of one reading. -/
theorem eq_of_handle_eq {other : Reading}
    (hreading : reading ∈ buffer.regionReadings grown plan.before inserted moved)
    (hother : other ∈ buffer.regionReadings grown plan.before inserted moved)
    (heq : other.handle = reading.handle) : other = reading :=
  List.inj_on_of_nodup_map R.nodup_region hother hreading heq

theorem lookup_region (hreading : reading ∈ buffer.regionReadings grown plan.before inserted moved) :
    changes.fresh.lookup reading.handle = if reading.old = reading.new then none else reading.new := by
  have hlookup (info : SiteInfo) : changes.fresh.lookup reading.handle = some info ↔
      reading.old ≠ reading.new ∧ reading.new = some info := by
    rw [lookup_eq_some_iff_mem R.nodup_fresh, R.mem_fresh]
    constructor
    · rintro ⟨other, hother, heq, hnew⟩
      obtain rfl := R.eq_of_handle_eq hreading hother heq
      exact hnew
    · exact fun hnew => ⟨reading, hreading, rfl, hnew⟩
  refine Option.ext fun info => ?_
  rw [hlookup]
  split_ifs with heq
  · simp [heq]
  · simp [heq]

theorem lookup_outside {handle : Handle} (hhandle : handle ∉ (inserted ++ moved).map (·.1)) :
    changes.fresh.lookup handle = none := by
  rw [Option.eq_none_iff_forall_ne_some]
  intro info hlookup
  obtain ⟨reading, hreading, rfl, -⟩ := R.mem_fresh.1 ((lookup_eq_some_iff_mem R.nodup_fresh).1 hlookup)
  exact hhandle (mem_region hreading)

theorem info?_renewed : (restated.renewed changes).info? site =
    (if site ∈ changes.retired then none else buffer.info? site).or
      (site.handle?.bind (List.lookup · changes.fresh)) := by
  have hsame : restated.info? = buffer.info? := by
    rw [R.same]
    rfl
  rw [renewed, info?_openSites_retire, hsame]

/-- What is known about a site of the region once records are exchanged is what its reading says. -/
theorem info?_region (h : buffer.Placed)
    (hreading : reading ∈ buffer.regionReadings grown plan.before inserted moved) :
    (restated.renewed changes).info? reading.site = reading.new := by
  have hretired : reading.site ∈ changes.retired ↔ reading.isRetired = true := by
    rw [R.mem_retired]
    constructor
    · rintro (hdoomed | ⟨other, hother, hretired, heq⟩)
      · obtain ⟨⟨handle, hhandle, heq⟩, -⟩ := mem_recordedIn.1 hdoomed
        injection heq with heq
        exact absurd (heq ▸ hhandle) (R.not_mem_doomed h hreading)
      · injection heq with heq
        obtain rfl := R.eq_of_handle_eq hreading hother heq
        exact hretired
    · exact fun hretired => .inr ⟨reading, hreading, hretired, rfl⟩
  have hlookup : (reading.site.handle?.bind (List.lookup · changes.fresh)) =
      if reading.old = reading.new then none else reading.new := R.lookup_region hreading
  rw [R.info?_renewed, hlookup, ← R.old_eq h hreading]
  simp only [hretired]
  unfold Reading.isRetired
  cases reading.old with
  | none => cases reading.new <;> simp
  | some old =>
    by_cases heq : some old = reading.new
    · simp [← heq]
    · simp [heq]

theorem hasRecord_fresh (h : buffer.Placed) {handle : Handle} {info : SiteInfo}
    (hfresh : (handle, info) ∈ changes.fresh) :
    (restated.renewed changes).hasRecord (.token handle) = true := by
  obtain ⟨reading, hreading, rfl, -, hnew⟩ := R.mem_fresh.1 hfresh
  have hinfo := R.info?_region h hreading
  rw [hnew] at hinfo
  rw [← isSome_info?, ← Reading.site, hinfo]
  rfl

/-- About other sites the same is known as before. -/
theorem info?_outside (hdoomed : ∀ handle ∈ doomed.map (·.1), site ≠ .token handle)
    (hregion : ∀ handle ∈ (inserted ++ moved).map (·.1), site ≠ .token handle) :
    site ∉ changes.retired ∧ (restated.renewed changes).info? site = buffer.info? site := by
  have hretired : site ∉ changes.retired := by
    rw [R.mem_retired]
    rintro (hmem | ⟨reading, hreading, -, rfl⟩)
    · obtain ⟨⟨handle, hhandle, heq⟩, -⟩ := mem_recordedIn.1 hmem
      exact hdoomed handle hhandle heq
    · exact hregion reading.handle (mem_region hreading) rfl
  refine ⟨hretired, ?_⟩
  rw [R.info?_renewed, if_neg hretired]
  cases site with
  | start | finish => exact Option.or_none
  | token handle =>
    change Option.or _ (changes.fresh.lookup handle) = _
    rw [R.lookup_outside fun hmem => hregion handle hmem rfl, Option.or_none]

end Restates

/-! ### The path through the sites -/

theorem nearest_reverse (row : List (Handle × Token)) :
    ∃ before, .start :: buffer.recordedIn row = before ++ [buffer.nearest row.reverse .start] := by
  have hnearest : buffer.nearest row.reverse .start =
      ((buffer.recordedIn row).getLast?).getD .start := by
    rw [nearest, recordedIn, ← List.head?_filter, List.map_reverse, List.filter_reverse,
      List.head?_reverse]
  rw [hnearest]
  rcases List.eq_nil_or_concat (buffer.recordedIn row) with hnil | ⟨before, site, hconcat⟩
  · exact ⟨[], by rw [hnil]; rfl⟩
  · refine ⟨.start :: before, ?_⟩
    rw [hconcat, List.concat_eq_append, List.getLast?_concat]
    rfl

theorem nearest_default (row : List (Handle × Token)) :
    ∃ after, buffer.recordedIn row ++ [.finish] = buffer.nearest row .finish :: after := by
  rw [nearest, ← List.head?_filter]
  change ∃ after, _ = ((buffer.recordedIn row).head?).getD .finish :: after
  cases buffer.recordedIn row with
  | nil => exact ⟨[], rfl⟩
  | cons site rest => exact ⟨rest ++ [.finish], rfl⟩

namespace Restates

variable (R : Restates buffer plan vocabulary restated grown changes front doomed inserted moved back)
include R

/-- What is in front of the region or behind it stays, and is not among its sites. -/
theorem stays (h : buffer.Placed)
    (hsite : ∀ handle, site = .token handle → handle ∈ front.map (·.1) ∨ handle ∈ back.map (·.1)) :
    (site ∉ changes.retired ∧ (restated.renewed changes).info? site = buffer.info? site) ∧
      ∀ reading ∈ buffer.regionReadings grown plan.before inserted moved, site ≠ reading.site := by
  have hbefore := R.nodup_before h
  have hafter := R.nodup_after
  simp only [List.map_append, List.nodup_append', List.disjoint_append_right] at hbefore hafter
  obtain ⟨-, ⟨-, -, -, hdoomedBack⟩, hfrontDoomed, -⟩ := hbefore
  obtain ⟨-, ⟨-, ⟨-, -, hmovedBack⟩, -, hinsertedBack⟩, hfrontInserted, hfrontMoved, -⟩ := hafter
  have hregion : ∀ handle ∈ (inserted ++ moved).map (·.1), site ≠ .token handle := by
    rintro handle hhandle rfl
    rw [List.map_append] at hhandle
    rcases hsite handle rfl with hfront | hback
    · rcases List.mem_append.1 hhandle with hhandle | hhandle
      · exact hfrontInserted hfront hhandle
      · exact hfrontMoved hfront hhandle
    · rcases List.mem_append.1 hhandle with hhandle | hhandle
      · exact hinsertedBack hhandle hback
      · exact hmovedBack hhandle hback
  refine ⟨R.info?_outside ?_ hregion, fun reading hreading => hregion _ (mem_region hreading)⟩
  rintro handle hhandle rfl
  rcases hsite handle rfl with hfront | hback
  · exact hfrontDoomed hfront hhandle
  · exact hdoomedBack hhandle hback

theorem hasRecord_stays (h : buffer.Placed)
    (hsite : ∀ handle, site = .token handle → handle ∈ front.map (·.1) ∨ handle ∈ back.map (·.1)) :
    (restated.renewed changes).hasRecord site = buffer.hasRecord site := by
  rw [← isSome_info?, ← isSome_info?, (R.stays h hsite).1.2]

/-- The sites of the region that have a record once records are exchanged. -/
theorem recordedIn_region (h : buffer.Placed) :
    (restated.renewed changes).recordedIn (inserted ++ moved) =
      ((buffer.regionReadings grown plan.before inserted moved).filter (·.new.isSome)).map (·.site) := by
  have hsites : (inserted ++ moved).map (fun entry => Site.token entry.1) =
      (buffer.regionReadings grown plan.before inserted moved).map (·.site) := by
    have hhandles := congrArg (List.map Site.token)
      (map_handle_region buffer grown plan.before inserted moved)
    rw [List.map_map, List.map_map] at hhandles
    exact hhandles.symm
  rw [recordedIn, hsites, List.filter_map]
  refine congrArg (List.map _) (List.filter_congr fun reading hreading => ?_)
  rw [Function.comp_apply, ← isSome_info?, R.info?_region h hreading]

/-- Both paths, and the chain of the edit that the new one goes along. -/
theorem exists_paths (h : buffer.Placed) : ∃ before middle after new,
    .start :: buffer.recordedIn front = before ++ [buffer.nearest front.reverse .start] ∧
    buffer.recordedIn back ++ [.finish] = buffer.nearest back .finish :: after ∧
    middle = buffer.recordedIn doomed ++ buffer.recordedIn moved ∧
    buffer.path = before ++ buffer.nearest front.reverse .start ::
      (middle ++ buffer.nearest back .finish :: after) ∧
    (restated.renewed changes).path = before ++ buffer.nearest front.reverse .start ::
      (new ++ buffer.nearest back .finish :: after) ∧
    changes.chain = buffer.nearest front.reverse .start :: (new ++ [buffer.nearest back .finish]) := by
  obtain ⟨before, hbefore⟩ := buffer.nearest_reverse front
  obtain ⟨after, hafter⟩ := buffer.nearest_default back
  have hcongr {row : List (Handle × Token)}
      (hrow : ∀ handle ∈ row.map (·.1), handle ∈ front.map (·.1) ∨ handle ∈ back.map (·.1)) :
      (restated.renewed changes).recordedIn row = buffer.recordedIn row := by
    refine List.filter_congr fun site hsite => R.hasRecord_stays h ?_
    rintro handle rfl
    obtain ⟨entry, hentry, heq⟩ := List.mem_map.1 hsite
    injection heq with heq
    exact hrow handle (heq ▸ List.mem_map_of_mem hentry)
  refine ⟨before, _, after, _, hbefore, hafter, rfl, ?_, ?_, R.chain_eq⟩
  · rw [path_eq, R.entries]
    simp only [recordedIn_append, List.append_assoc]
    rw [hafter, ← List.cons_append, hbefore]
    simp
  · rw [path_eq, show (restated.renewed changes).tokens.entries = _ from R.restated_entries,
      ← List.append_assoc inserted, recordedIn_append, recordedIn_append, R.recordedIn_region h,
      hcongr fun _ hhandle => .inl hhandle, hcongr fun _ hhandle => .inr hhandle, List.append_assoc,
      List.append_assoc, hafter, ← List.cons_append, hbefore]
    simp

/-- The sites whose successors an edit looks at. -/
theorem mem_kept : site ∈ changes.kept ↔ site = buffer.nearest front.reverse .start ∨
    ∃ reading ∈ buffer.regionReadings grown plan.before inserted moved,
      reading.isKept = true ∧ reading.site = site := by
  rw [R.kept_eq, List.mem_cons, List.mem_map]
  refine or_congr_right (exists_congr fun reading => ?_)
  rw [List.mem_filter, and_assoc]

/-- A recorded site among the tokens that make way or stay in another state is retired or kept. -/
theorem retired_or_kept (h : buffer.Placed)
    (hsite : site ∈ buffer.recordedIn doomed ++ buffer.recordedIn moved) :
    site ∈ changes.retired ∨ site ∈ changes.kept := by
  rcases List.mem_append.1 hsite with hsite | hsite
  · exact .inl (R.mem_retired.2 (.inl hsite))
  · obtain ⟨⟨handle, hhandle, rfl⟩, hrecord⟩ := mem_recordedIn.1 hsite
    have hmem : handle ∈ (inserted ++ moved).map (·.1) := by
      rw [List.map_append]
      exact List.mem_append_right _ hhandle
    rw [← map_handle_region buffer grown plan.before] at hmem
    obtain ⟨reading, hreading, rfl⟩ := List.mem_map.1 hmem
    have hold : reading.old.isSome = true := by
      rw [R.old_eq h hreading, isSome_info?]
      exact hrecord
    by_cases heq : reading.old = reading.new
    · exact .inr (R.mem_kept.2 (.inr ⟨reading, hreading, by simp [Reading.isKept, hold, heq.symm], rfl⟩))
    · exact .inl (R.mem_retired.2
        (.inr ⟨reading, hreading, by simp [Reading.isRetired, hold, heq], rfl⟩))

/-- After an edit, the edges of the path are those of the chain, and the old ones between sites whose
records stay, unless they lead away from a site whose successor the edit looks at. -/
theorem mem_pairs_path (h : buffer.Placed) {source target : Site} :
    (source, target) ∈ pairs (restated.renewed changes).path ↔ (source, target) ∈ changes.edges ∨
      (source, target) ∈ pairs buffer.path ∧ source ∉ changes.retired ∧ target ∉ changes.retired ∧
        source ∉ changes.kept := by
  obtain ⟨before, middle, after, new, hbefore, hafter, hmiddle, hold, hnew, hchain⟩ := R.exists_paths h
  have hedges : changes.edges = pairs changes.chain := rfl
  -- around the region nothing is retired, and only the last site in front of it is kept
  have hfront (site : Site) (hsite : site ∈ before ++ [buffer.nearest front.reverse .start]) :
      site ∉ changes.retired ∧
        ∀ reading ∈ buffer.regionReadings grown plan.before inserted moved, site ≠ reading.site := by
    rw [← hbefore] at hsite
    refine (R.stays h ?_).imp_left And.left
    rintro handle rfl
    obtain ⟨⟨other, hother, heq⟩, -⟩ := mem_recordedIn.1 (List.mem_of_ne_of_mem Site.noConfusion hsite)
    exact .inl (Site.token.inj heq ▸ hother)
  have hback (site : Site) (hsite : site ∈ buffer.nearest back .finish :: after) :
      site ∉ changes.retired ∧
        ∀ reading ∈ buffer.regionReadings grown plan.before inserted moved, site ≠ reading.site := by
    rw [← hafter] at hsite
    refine (R.stays h ?_).imp_left And.left
    rintro handle rfl
    rcases List.mem_append.1 hsite with hsite | hsite
    · obtain ⟨⟨other, hother, heq⟩, -⟩ := mem_recordedIn.1 hsite
      exact .inr (Site.token.inj heq ▸ hother)
    · cases List.mem_singleton.1 hsite
  have hordered := buffer.pairwise_path (h.tokens Token.codepointSummary).named.nodup_handles
  rw [hold, List.pairwise_append, List.pairwise_cons] at hordered
  obtain ⟨-, ⟨hlater, -⟩, hearlier⟩ := hordered
  have hkept (site : Site) (hsite : site ∈ before ∨ site ∈ buffer.nearest back .finish :: after) :
      site ∉ changes.kept := by
    rw [R.mem_kept]
    rintro (rfl | ⟨reading, hreading, -, rfl⟩)
    · refine hsite.elim (fun hsite => ?_) fun hsite => ?_
      · exact lt_irrefl _ (hearlier _ hsite _ List.mem_cons_self)
      · exact lt_irrefl _ (hlater _ (List.mem_append_right _ hsite))
    · refine hsite.elim (fun hsite => ?_) fun hsite => ?_
      · exact (hfront _ (List.mem_append_left _ hsite)).2 reading hreading rfl
      · exact (hback _ hsite).2 reading hreading rfl
  rw [hnew, hold, hedges, hchain, mem_pairs_append, mem_pairs_append]
  constructor
  · rintro (hpair | hpair | hpair)
    · obtain ⟨hsource, htarget⟩ := mem_of_mem_pairs hpair
      exact .inr ⟨.inl hpair, (hfront _ hsource).1, (hfront _ htarget).1,
        hkept _ (.inl (fst_mem_of_mem_pairs hpair))⟩
    · exact .inl hpair
    · obtain ⟨hsource, htarget⟩ := mem_of_mem_pairs hpair
      exact .inr ⟨.inr (.inr hpair), (hback _ hsource).1, (hback _ htarget).1,
        hkept _ (.inr hsource)⟩
  · rintro (hpair | ⟨hpair | hpair | hpair, hretired, -, hnot⟩)
    · exact .inr (.inl hpair)
    · exact .inl hpair
    · rw [← List.cons_append] at hpair
      rcases List.mem_cons.1 (fst_mem_of_mem_pairs hpair) with rfl | hsource
      · exact absurd (R.mem_kept.2 (.inl rfl)) hnot
      · exact ((R.retired_or_kept h (hmiddle ▸ hsource)).elim hretired hnot).elim
    · exact .inr (.inr hpair)

/-! ### What else stays -/

/-- A recorded token whose record stays did not make way. -/
theorem lasts (h : buffer.Placed) {handle : Handle} (hrecord : buffer.hasRecord (.token handle) = true)
    (hretired : .token handle ∉ changes.retired) :
    handle ∈ front.map (·.1) ∨ handle ∈ (moved ++ back).map (·.1) := by
  have hlive := h.live handle hrecord
  rw [Sequence.handles, R.entries, List.map_append, List.map_append, List.mem_append,
    List.mem_append] at hlive
  rcases hlive with hfront | hdoomed | hrest
  · exact .inl hfront
  · exact absurd (R.mem_retired.2 (.inl (mem_recordedIn.2 ⟨⟨handle, hdoomed, rfl⟩, hrecord⟩))) hretired
  · exact .inr hrest

/-- The places of two tokens that stay are in the same order. -/
theorem idxOf_lt_iff (h : buffer.Placed) {a b : Handle}
    (ha : a ∈ front.map (·.1) ∨ a ∈ (moved ++ back).map (·.1))
    (hb : b ∈ front.map (·.1) ∨ b ∈ (moved ++ back).map (·.1)) :
    buffer.tokens.handles.idxOf a < buffer.tokens.handles.idxOf b ↔
      restated.tokens.handles.idxOf a < restated.tokens.handles.idxOf b := by
  have hbefore := R.nodup_before h
  have hafter := R.nodup_after
  rw [List.map_append, List.map_append, List.nodup_append', List.nodup_append'] at hbefore hafter
  obtain ⟨-, ⟨-, -, hdoomed⟩, hfront⟩ := hbefore
  obtain ⟨-, ⟨-, -, hinserted⟩, -⟩ := hafter
  have hmap (gap : List (Handle × Token)) : (front ++ (gap ++ (moved ++ back))).map (·.1) =
      front.map (·.1) ++ (gap.map (·.1) ++ (moved ++ back).map (·.1)) := by
    rw [List.map_append, List.map_append]
  rw [Sequence.handles, Sequence.handles, R.entries, R.restated_entries, hmap, hmap]
  have hindex {x : Handle} (hx : x ∈ front.map (·.1) ∨ x ∈ (moved ++ back).map (·.1))
      {gap : List Handle} (hgap : gap.Disjoint ((moved ++ back).map (·.1))) :
      (front.map (·.1) ++ (gap ++ (moved ++ back).map (·.1))).idxOf x =
        if x ∈ front.map (·.1) then (front.map (·.1)).idxOf x
        else (front.map (·.1)).length + (gap.length + ((moved ++ back).map (·.1)).idxOf x) := by
    rw [List.idxOf_append]
    split_ifs with hmem
    · rfl
    · rw [List.idxOf_append_of_notMem fun hin => hgap hin (hx.resolve_left hmem)]
      omega
  have hshort {x : Handle} (hx : x ∈ front.map (·.1)) := List.idxOf_lt_length_of_mem hx
  rw [hindex ha hdoomed, hindex hb hdoomed, hindex ha hinserted, hindex hb hinserted]
  split_ifs with hafront hbfront hbfront
  · rfl
  · have := hshort hafront
    omega
  · have := hshort hbfront
    omega
  · omega

/-- The sites whose records stay keep their order. -/
theorem position_lt_iff (h : buffer.Placed) {a b : Site}
    (ha : buffer.hasRecord a = true ∧ a ∉ changes.retired)
    (hb : buffer.hasRecord b = true ∧ b ∉ changes.retired) :
    buffer.position a < buffer.position b ↔
      (restated.renewed changes).position a < (restated.renewed changes).position b := by
  have hbound (tokens : TokenSequence) (handle : Handle) :
      tokens.handles.idxOf handle ≤ tokens.handles.length := List.idxOf_le_length
  have hold := hbound buffer.tokens
  have hnew := hbound restated.tokens
  cases a with
  | start =>
    cases b with
    | start => exact iff_of_false (lt_irrefl _) (lt_irrefl _)
    | token | finish => exact iff_of_true (Nat.succ_pos _) (Nat.succ_pos _)
  | token a =>
    cases b with
    | start => exact iff_of_false (Nat.not_lt_zero _) (Nat.not_lt_zero _)
    | token b =>
      have hlt := R.idxOf_lt_iff h (R.lasts h ha.1 ha.2) (R.lasts h hb.1 hb.2)
      change _ + 1 < _ + 1 ↔ _ + 1 < _ + 1
      rw [Nat.add_lt_add_iff_right, Nat.add_lt_add_iff_right]
      exact hlt
    | finish =>
      have ha := hold a
      have ha' := hnew a
      change _ + 1 < _ + 2 ↔ _ + 1 < _ + 2
      exact iff_of_true (by omega) (Nat.lt_succ_of_le (Nat.succ_le_succ ha'))
  | finish =>
    cases b with
    | start => exact iff_of_false (Nat.not_lt_zero _) (Nat.not_lt_zero _)
    | token b =>
      have hb := hold b
      have hb' := hnew b
      refine iff_of_false ?_ ?_
      · change ¬_ + 2 < _ + 1
        omega
      · change ¬restated.tokens.handles.length + 2 < restated.tokens.handles.idxOf b + 1
        omega
    | finish => exact iff_of_false (lt_irrefl _) (lt_irrefl _)

/-- A record that stays says the same. -/
theorem info?_stays (hsite : buffer.hasRecord site = true) (hretired : site ∉ changes.retired) :
    (restated.renewed changes).info? site = buffer.info? site := by
  obtain ⟨info, hinfo⟩ := Option.isSome_iff_exists.1 ((buffer.isSome_info? site).trans hsite)
  rw [R.info?_renewed, if_neg hretired, hinfo, Option.some_or]

/-- Records are those of tokens that are there again. -/
theorem placed (h : buffer.Placed) : (restated.renewed changes).Placed := by
  refine ⟨R.tokens, fun handle hrecord => ?_, ?_, ?_⟩
  · change handle ∈ restated.tokens.handles
    rw [Sequence.handles, R.restated_entries, List.map_append, List.mem_append]
    by_cases hstays : buffer.hasRecord (.token handle) = true ∧ .token handle ∉ changes.retired
    · refine (R.lasts h hstays.1 hstays.2).imp_right fun hmem => ?_
      rw [List.map_append]
      exact List.mem_append_right _ hmem
    · have hregion : handle ∈ (inserted ++ moved).map (·.1) := by
        by_contra hnot
        rw [← isSome_info?, R.info?_renewed] at hrecord
        change (Option.or _ (changes.fresh.lookup handle)).isSome = true at hrecord
        rw [R.lookup_outside hnot, Option.or_none] at hrecord
        split_ifs at hrecord with hretired
        · cases hrecord
        · exact hstays ⟨(buffer.isSome_info? _).symm.trans hrecord, hretired⟩
      refine .inr ?_
      rw [← List.append_assoc, List.map_append]
      exact List.mem_append_left _ hregion
  · rw [R.hasRecord_stays h fun handle heq => Site.noConfusion heq]
    exact h.start
  · rw [R.hasRecord_stays h fun handle heq => Site.noConfusion heq]
    exact h.finish

/-! ### The chain of an edited buffer -/

/-- What is known when the records are exchanged is known about a fresh site, or still known about one
that is not retired. -/
theorem info?_renewed_iff (h : buffer.Placed) (site : Site) (info : SiteInfo) :
    (restated.renewed changes).info? site = some info ↔
      (∃ handle, (handle, info) ∈ changes.fresh ∧ site = .token handle) ∨
        buffer.info? site = some info ∧ site ∉ changes.retired := by
  have hlookup (handle : Handle) : changes.fresh.lookup handle = some info ↔
      (handle, info) ∈ changes.fresh := lookup_eq_some_iff_mem R.nodup_fresh
  rw [R.info?_renewed, Option.or_eq_some_iff]
  constructor
  · rintro (hkept | ⟨-, hnew⟩)
    · split_ifs at hkept with hretired
      exact .inr ⟨hkept, hretired⟩
    · cases site with
      | start | finish => cases hnew
      | token handle => exact .inl ⟨handle, (hlookup handle).1 hnew, rfl⟩
  · rintro (⟨handle, hfresh, rfl⟩ | ⟨hkept, hretired⟩)
    · refine .inr ⟨?_, (hlookup handle).2 hfresh⟩
      rcases R.retired_of_fresh h hfresh with hretired | hrecord
      · exact if_pos hretired
      · rw [← Option.not_isSome_iff_eq_none]
        split_ifs
        · simp
        · rw [isSome_info?, hrecord]
          exact Bool.false_ne_true
    · exact .inl ((if_neg hretired).trans hkept)

/-- A buffer stays a chain of its recorded sites when the facts of retired sites go, with the edges from
sites whose successors the edit looks at, and the facts of fresh sites and the edges of the edit come. -/
theorem chained (h : buffer.Placed) {observed seen : Fact → Bool} (hchained : buffer.Chained observed)
    (hnext : ∀ source target, seen (.next buffer.id source target) = true ↔
      (source, target) ∈ changes.edges ∨ observed (.next buffer.id source target) = true ∧
        source ∉ changes.retired ∧ target ∉ changes.retired ∧ source ∉ changes.kept)
    (havailable : ∀ handle, seen (.available buffer.id handle) = true ↔
      handle ∈ changes.fresh.map (·.1) ∨
        observed (.available buffer.id handle) = true ∧ .token handle ∉ changes.retired)
    (hending : ∀ site positive, seen (.endOfSentence buffer.id site positive) = true ↔
      (∃ handle info, (handle, info) ∈ changes.fresh ∧ site = .token handle ∧
        info.traits.sentenceEnd = positive) ∨
        observed (.endOfSentence buffer.id site positive) = true ∧ site ∉ changes.retired) :
    (restated.renewed changes).Chained seen := by
  have hid := R.id_renewed
  have hinfo := R.info?_renewed_iff h
  refine ⟨fun source target => ?_, fun handle => ?_, fun site positive => ?_⟩
  · rw [hid, hnext, hchained.edges, R.mem_pairs_path h]
  · rw [hid, havailable, hchained.available, ← isSome_info?, ← isSome_info?, Option.isSome_iff_exists,
      Option.isSome_iff_exists]
    simp only [hinfo]
    constructor
    · rintro (hfresh | ⟨⟨info, hsome⟩, hretired⟩)
      · obtain ⟨⟨_, info⟩, hmem, rfl⟩ := List.mem_map.1 hfresh
        exact ⟨info, .inl ⟨_, hmem, rfl⟩⟩
      · exact ⟨info, .inr ⟨hsome, hretired⟩⟩
    · rintro ⟨info, ⟨other, hmem, heq⟩ | ⟨hsome, hretired⟩⟩
      · obtain rfl := Site.token.inj heq
        exact .inl (List.mem_map_of_mem hmem)
      · exact .inr ⟨⟨info, hsome⟩, hretired⟩
  · rw [hid, hending, hchained.endings]
    simp only [hinfo]
    constructor
    · rintro (⟨handle, info, hmem, rfl, hpositive⟩ | ⟨⟨info, hsome, hpositive⟩, hretired⟩)
      · exact ⟨info, .inl ⟨handle, hmem, rfl⟩, hpositive⟩
      · exact ⟨info, .inr ⟨hsome, hretired⟩, hpositive⟩
    · rintro ⟨info, ⟨handle, hmem, rfl⟩ | ⟨hsome, hretired⟩, hpositive⟩
      · exact .inl ⟨handle, info, hmem, rfl, hpositive⟩
      · exact .inr ⟨⟨info, hsome, hpositive⟩, hretired⟩

end Restates

end Buffer

end LiveProse
