/-
Deltas that do not touch each other commute.

`Independent` collects what is needed of a list of deltas: together they
form a valid delta, and each one that replaces a live object consumes it
itself. The condition does not depend on the order of the list, it
survives the application of one of the deltas, and so every order of
applying them succeeds and ends in the objects of the combined delta.
-/
import ZephyrChain.WorldState.Proofs.Memory

namespace ZephyrChain.WorldState

variable {C : Crypto}

/-- What one call of `Apply` is given. -/
structure Delta where
  consumed : List ObjectID
  created : List Object

/-- All deltas in one call. -/
def merged (ds : List Delta) : Delta :=
  ⟨ds.flatMap Delta.consumed, ds.flatMap Delta.created⟩

/-- One call for each delta; the first error ends the row. -/
def applyInTurn (C : Crypto) (m : Memory) : List Delta → Except Error Memory
  | [] => .ok m
  | d :: ds =>
    match m.apply C d.consumed d.created with
    | (m', _, none) => applyInTurn C m' ds
    | (_, _, some e) => .error e

/-- Deltas that can be applied in any order. -/
structure Independent (objects : Objects) (ds : List Delta) : Prop where
  valid : ValidDelta objects (merged ds).consumed (merged ds).created
  own : ∀ d ∈ ds, ∀ o ∈ d.created, o.id ∈ objects → o.id ∈ d.consumed

namespace Independent

variable {objects : Objects} {d : Delta} {ds : List Delta}
variable {ds' : List Delta}

/-- Only what is consumed and created in all matters, and which delta an
object is created by. -/
theorem of_merged
    (hconsumed : (merged ds).consumed.Perm (merged ds').consumed)
    (hcreated : (merged ds).created.Perm (merged ds').created)
    (hown : ∀ d ∈ ds', ∀ o ∈ d.created, o.id ∈ objects → o.id ∈ d.consumed)
    (h : Independent objects ds) : Independent objects ds' := by
  refine ⟨⟨?_, ?_, ?_, ?_, ?_⟩, hown⟩
  · exact hconsumed.nodup_iff.1 h.valid.nodup
  · exact fun id hid => h.valid.live id (hconsumed.mem_iff.2 hid)
  · exact fun o ho => h.valid.valid o (hcreated.mem_iff.2 ho)
  · exact (hcreated.map _).nodup_iff.1 h.valid.distinct
  · intro o ho hlive
    exact hconsumed.mem_iff.1
      (h.valid.fresh o (hcreated.mem_iff.2 ho) hlive)

/-- The order of the deltas does not matter. -/
theorem perm (hp : ds.Perm ds') (h : Independent objects ds) :
    Independent objects ds' :=
  h.of_merged (hp.flatMap_right _) (hp.flatMap_right _)
    fun d hd => h.own d (hp.mem_iff.2 hd)

/-- Nor does the order within each delta. -/
theorem congr (hp : List.Forall₂ (fun d d' : Delta =>
      d.consumed.Perm d'.consumed ∧ d.created.Perm d'.created) ds ds')
    (h : Independent objects ds) : Independent objects ds' := by
  refine h.of_merged ?_ ?_ ?_
  · clear h
    induction hp with
    | nil => exact .refl _
    | cons hd _ ih => exact hd.1.append ih
  · clear h
    induction hp with
    | nil => exact .refl _
    | cons hd _ ih => exact hd.2.append ih
  · have hown := h.own
    clear h
    induction hp with
    | nil => exact fun d hd => absurd hd List.not_mem_nil
    | cons hd _ ih =>
      obtain ⟨hhead, htail⟩ := List.forall_mem_cons.1 hown
      refine List.forall_mem_cons.2 ⟨fun o ho hlive => ?_, ih htail⟩
      exact hd.1.mem_iff.1 (hhead o (hd.2.mem_iff.2 ho) hlive)

/-- The first delta alone. -/
theorem head (h : Independent objects (d :: ds)) :
    ValidDelta objects d.consumed d.created where
  nodup := (List.nodup_append.1 h.valid.nodup).1
  live id hid := h.valid.live id (List.mem_append_left _ hid)
  valid o ho := h.valid.valid o (List.mem_append_left _ ho)
  distinct := by
    have hdistinct : ((d.created ++ (merged ds).created).map
        Object.id).Nodup := h.valid.distinct
    rw [List.map_append] at hdistinct
    exact (List.nodup_append.1 hdistinct).1
  fresh := h.own d List.mem_cons_self

/-- No later delta consumes what the first one consumes. -/
theorem consumed_disjoint (h : Independent objects (d :: ds))
    {id : ObjectID} (hd : id ∈ d.consumed)
    (hds : id ∈ (merged ds).consumed) : False :=
  (List.nodup_append.1 h.valid.nodup).2.2 id hd id hds rfl

/-- No later delta creates what the first one creates. -/
theorem created_disjoint (h : Independent objects (d :: ds)) {o o' : Object}
    (hd : o ∈ d.created) (hds : o' ∈ (merged ds).created) :
    o.id ≠ o'.id := by
  have hdistinct : ((d.created ++ (merged ds).created).map
      Object.id).Nodup := h.valid.distinct
  rw [List.map_append] at hdistinct
  exact (List.nodup_append.1 hdistinct).2.2 _ (List.mem_map_of_mem hd) _
    (List.mem_map_of_mem hds)

/-- No later delta consumes what the first one creates. -/
theorem created_not_consumed (h : Independent objects (d :: ds))
    {o : Object} (hd : o ∈ d.created) : o.id ∉ (merged ds).consumed := by
  intro hds
  have hlive := h.valid.live o.id (List.mem_append_right _ hds)
  exact h.consumed_disjoint (h.own d List.mem_cons_self o hd hlive) hds

/-- The others remain independent once the first delta is applied. -/
theorem tail (h : Independent objects (d :: ds)) :
    Independent (applyObjects objects d.consumed d.created) ds := by
  have hcreated : ∀ o ∈ (merged ds).created,
      o.id ∉ d.created.map Object.id := by
    intro o ho hmem
    obtain ⟨o', ho', heq⟩ := List.mem_map.1 hmem
    exact h.created_disjoint ho' ho heq
  -- a created object that is live afterwards was live before: the first
  -- delta neither created nor deleted it
  have hbefore : ∀ o ∈ (merged ds).created,
      o.id ∈ applyObjects objects d.consumed d.created →
        o.id ∈ objects := by
    intro o ho hlive
    rw [← Finmap.lookup_isSome,
      lookup_applyObjects_other (hcreated o ho)] at hlive
    split at hlive
    case isTrue => cases hlive
    case isFalse => exact Finmap.lookup_isSome.1 hlive
  have hown : ∀ d' ∈ ds, ∀ o ∈ d'.created,
      o.id ∈ applyObjects objects d.consumed d.created →
        o.id ∈ d'.consumed := by
    intro d' hd' o ho hlive
    have hmem : o ∈ (merged ds).created := List.mem_flatMap.2 ⟨d', hd', ho⟩
    exact h.own d' (List.mem_cons_of_mem d hd') o ho
      (hbefore o hmem hlive)
  refine ⟨⟨?_, ?_, ?_, ?_, ?_⟩, hown⟩
  · exact (List.nodup_append.1 h.valid.nodup).2.1
  · intro id hid
    have hlive := h.valid.live id (List.mem_append_right _ hid)
    have hnew : id ∉ d.created.map Object.id := by
      intro hmem
      obtain ⟨o, ho, rfl⟩ := List.mem_map.1 hmem
      exact h.created_not_consumed ho hid
    rw [← Finmap.lookup_isSome, lookup_applyObjects_other hnew,
      if_neg fun hd => h.consumed_disjoint hd hid]
    exact Finmap.lookup_isSome.2 hlive
  · exact fun o ho => h.valid.valid o (List.mem_append_right _ ho)
  · have hdistinct : ((d.created ++ (merged ds).created).map
        Object.id).Nodup := h.valid.distinct
    rw [List.map_append] at hdistinct
    exact (List.nodup_append.1 hdistinct).2.1
  · intro o ho hlive
    obtain ⟨d', hd', ho'⟩ := List.mem_flatMap.1 ho
    exact List.mem_flatMap.2 ⟨d', hd', hown d' hd' o ho' hlive⟩

/-- Applying the first delta and then all others is applying all. -/
theorem applyObjects_cons (h : Independent objects (d :: ds)) :
    applyObjects (applyObjects objects d.consumed d.created)
        (merged ds).consumed (merged ds).created =
      applyObjects objects (merged (d :: ds)).consumed
        (merged (d :: ds)).created := by
  have hall := h.valid.distinct
  refine Finmap.ext_lookup fun id => ?_
  by_cases hds : id ∈ (merged ds).created.map Object.id
  · obtain ⟨o, ho, rfl⟩ := List.mem_map.1 hds
    rw [lookup_applyObjects_created h.tail.valid.distinct ho,
      lookup_applyObjects_created hall (List.mem_append_right _ ho)]
  rw [lookup_applyObjects_other hds]
  by_cases hd : id ∈ d.created.map Object.id
  · obtain ⟨o, ho, rfl⟩ := List.mem_map.1 hd
    rw [if_neg (h.created_not_consumed ho),
      lookup_applyObjects_created h.head.distinct ho,
      lookup_applyObjects_created hall (List.mem_append_left _ ho)]
  have hnot : id ∉ (merged (d :: ds)).created.map Object.id := by
    show id ∉ (d.created ++ (merged ds).created).map Object.id
    rw [List.map_append, List.mem_append]
    exact not_or.2 ⟨hd, hds⟩
  have hmem : id ∈ (merged (d :: ds)).consumed ↔
      id ∈ d.consumed ∨ id ∈ (merged ds).consumed := List.mem_append
  rw [lookup_applyObjects_other hd, lookup_applyObjects_other hnot]
  by_cases hlate : id ∈ (merged ds).consumed
  · rw [if_pos hlate, if_pos (hmem.2 (Or.inr hlate))]
  by_cases hearly : id ∈ d.consumed
  · rw [if_neg hlate, if_pos hearly, if_pos (hmem.2 (Or.inl hearly))]
  · rw [if_neg hlate, if_neg hearly,
      if_neg fun hid => (hmem.1 hid).elim hearly hlate]

end Independent

/-- A delta is two sets: the order of its lists does not matter. -/
theorem applyObjects_perm {objects : Objects}
    {consumed consumed' : List ObjectID} {created created' : List Object}
    (hconsumed : consumed.Perm consumed') (hcreated : created.Perm created')
    (hdistinct : (created.map Object.id).Nodup) :
    applyObjects objects consumed created =
      applyObjects objects consumed' created' := by
  have hids := hcreated.map Object.id
  refine Finmap.ext_lookup fun id => ?_
  by_cases hid : id ∈ created.map Object.id
  · obtain ⟨o, ho, rfl⟩ := List.mem_map.1 hid
    rw [lookup_applyObjects_created hdistinct ho,
      lookup_applyObjects_created (hids.nodup_iff.1 hdistinct)
        (hcreated.mem_iff.1 ho)]
  · rw [lookup_applyObjects_other hid,
      lookup_applyObjects_other fun h => hid (hids.mem_iff.2 h)]
    by_cases hc : id ∈ consumed
    · rw [if_pos hc, if_pos (hconsumed.mem_iff.1 hc)]
    · rw [if_neg hc, if_neg fun h => hc (hconsumed.mem_iff.2 h)]

/-- Independent deltas, one after the other: every call succeeds and the
objects end as the combined delta leaves them. -/
theorem Mirrors.applyInTurn_ok {m : Memory} (hm : Mirrors C m)
    {ds : List Delta} (h : Independent m.objects ds) :
    ∃ m', applyInTurn C m ds = .ok m' ∧ Mirrors C m' ∧
      m'.objects =
        applyObjects m.objects (merged ds).consumed (merged ds).created := by
  induction ds generalizing m with
  | nil => exact ⟨m, rfl, hm, rfl⟩
  | cons d ds ih =>
    obtain ⟨happly, hm', hobjects⟩ := hm.apply_valid h.head
    have htail := h.tail
    rw [← hobjects] at htail
    obtain ⟨m', heach, hmirror, hend⟩ := ih hm' htail
    refine ⟨m', ?_, hmirror, ?_⟩
    · unfold applyInTurn
      rw [happly]
      exact heach
    · rw [hend, hobjects, h.applyObjects_cons]

/-- Every order of independent deltas ends in the one store that the
combined delta gives. -/
theorem Mirrors.applyInTurn_perm {m : Memory} (hm : Mirrors C m)
    {ds ds' : List Delta} (h : Independent m.objects ds)
    (hp : ds.Perm ds') :
    applyInTurn C m ds' =
      .ok (m.apply C (merged ds).consumed (merged ds).created).1 := by
  obtain ⟨-, hm₁, h₁⟩ := hm.apply_valid h.valid
  obtain ⟨m₂, hturn, hm₂, h₂⟩ := hm.applyInTurn_ok (h.perm hp)
  have hobjects : applyObjects m.objects (merged ds).consumed
        (merged ds).created =
      applyObjects m.objects (merged ds').consumed (merged ds').created :=
    applyObjects_perm (hp.flatMap_right _) (hp.flatMap_right _)
      h.valid.distinct
  rw [hturn, hm₂.ext hm₁ (h₂.trans (hobjects.symm.trans h₁.symm))]

end ZephyrChain.WorldState
