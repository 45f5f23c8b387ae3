import Mathlib.Data.List.Perm.Basic
import Mathlib.Data.List.Nodup
import SqlReplay.Data.FirstSeen

/-!
# Outputs attributed to their producers

Several producers share one output, each item of which is labelled with an id. Producers get their
ids when they first have something to say, and the labels alone must tell afterwards whose an item
is. `Attributed` says that they do: the ids in use belong to one producer each, and the items under
a producer's id are what it produced, in order.

A producer is a pair of its id, if it has one, and all it has produced. An operation changes one of
them, so the lists of producers are written as the one that changes between the others.
-/

namespace SqlReplay

variable {ι ε : Type*} [DecidableEq ι]

/-- The items labelled with an id. -/
def labelled (out : List (ι × ε)) (id : ι) : List ε := (out.filter (·.1 = id)).map Prod.snd

/-- What a producer has produced is what stands under its id; one without an id has produced
nothing. -/
def Owns (out : List (ι × ε)) : Option ι × List ε → Prop
  | (none, items) => items = []
  | (some id, items) => labelled out id = items

/-- The parts of an output: the items under each id. -/
def sections (out : List (ι × ε)) : List (List ε) :=
  (out.map Prod.fst).eraseDups.map (labelled out)

/-- Every item is labelled with the id of its producer. -/
structure Attributed (used : List ι) (out : List (ι × ε)) (owners : List (Option ι × List ε)) :
    Prop where
  ids : (owners.filterMap Prod.fst).Perm used
  nodup : used.Nodup
  out_mem : ∀ x ∈ out, x.1 ∈ used
  owns : ∀ o ∈ owners, Owns out o

theorem labelled_append_self (out : List (ι × ε)) (id : ι) (items : List ε) :
    labelled (out ++ items.map (id, ·)) id = labelled out id ++ items := by
  have hall : (items.map (id, ·)).filter (·.1 = id) = items.map (id, ·) := by
    rw [List.filter_eq_self]
    intro x hx
    obtain ⟨item, -, rfl⟩ := List.mem_map.mp hx
    exact decide_eq_true rfl
  rw [labelled, List.filter_append, hall, List.map_append, List.map_map]
  exact congrArg _ (List.map_id' items)

theorem labelled_append_of_ne (out : List (ι × ε)) {id id' : ι} (h : id' ≠ id) (items : List ε) :
    labelled (out ++ items.map (id', ·)) id = labelled out id := by
  have hnone : (items.map (id', ·)).filter (·.1 = id) = [] := by
    rw [List.filter_eq_nil_iff]
    intro x hx
    obtain ⟨item, -, rfl⟩ := List.mem_map.mp hx
    exact fun heq ↦ h (of_decide_eq_true heq)
  rw [labelled, List.filter_append, hnone, List.append_nil, labelled]

/-- Items under another id change nothing. -/
theorem Owns.append {out : List (ι × ε)} {o : Option ι × List ε} (h : Owns out o) {id : ι}
    (hne : ∀ id', o.1 = some id' → id ≠ id') (items : List ε) :
    Owns (out ++ items.map (id, ·)) o := by
  obtain ⟨_ | id', produced⟩ := o
  · exact h
  · exact (labelled_append_of_ne out (hne id' rfl) items).trans h

/-- An item under a producer's id is one of what it produced. -/
theorem Owns.mem {out : List (ι × ε)} {o : Option ι × List ε} (h : Owns out o) {x : ι × ε}
    (hid : o.1 = some x.1) (hx : x ∈ out) : x.2 ∈ o.2 := by
  obtain ⟨id, produced⟩ := o
  obtain rfl : id = some x.1 := hid
  have h : labelled out x.1 = produced := h
  rw [← h]
  exact List.mem_map_of_mem (List.mem_filter.mpr ⟨hx, decide_eq_true rfl⟩)

omit [DecidableEq ι] in
theorem filterMap_middle (before after : List (Option ι × List ε)) (id : Option ι)
    (items : List ε) : (before ++ (id, items) :: after).filterMap Prod.fst =
      before.filterMap Prod.fst ++ (id.toList ++ after.filterMap Prod.fst) := by
  rw [List.filterMap_append]
  cases id <;> rfl

/-- The items with one of several keys, key by key. -/
theorem filter_mem_perm {α κ : Type*} [DecidableEq κ] (f : α → κ) {ks : List κ} (h : ks.Nodup)
    (l : List α) : (l.filter (f · ∈ ks)).Perm (ks.flatMap fun k ↦ l.filter (f · = k)) := by
  induction ks with
  | nil =>
    have hnone : l.filter (f · ∈ ([] : List κ)) = [] := by
      simp
    rw [hnone]
    exact .refl _
  | cons k ks ih =>
    obtain ⟨hk, hks⟩ := List.nodup_cons.mp h
    have hsplit := List.filter_append_perm (f · = k) (l.filter (f · ∈ k :: ks))
    have hfirst : (l.filter (f · ∈ k :: ks)).filter (f · = k) = l.filter (f · = k) := by
      rw [List.filter_filter]
      refine List.filter_congr fun x _ ↦ ?_
      by_cases hx : f x = k
      · simp [hx]
      · simp [hx]
    have hrest : (l.filter (f · ∈ k :: ks)).filter (fun x ↦ !decide (f x = k)) =
        l.filter (f · ∈ ks) := by
      rw [List.filter_filter]
      refine List.filter_congr fun x _ ↦ ?_
      by_cases hx : f x = k
      · simp [hx, hk]
      · simp [hx]
    rw [hfirst, hrest] at hsplit
    exact hsplit.symm.trans ((ih hks).append_left _)

/-- The parts are the items, put together by their ids. -/
theorem sections_flatten_perm (out : List (ι × ε)) :
    (sections out).flatten.Perm (out.map Prod.snd) := by
  have hids := filter_mem_perm Prod.fst (nodup_eraseDups (out.map Prod.fst)) out
  have hall : out.filter (fun x ↦ decide (x.1 ∈ (out.map Prod.fst).eraseDups)) = out := by
    rw [List.filter_eq_self]
    intro x hx
    exact decide_eq_true (List.mem_eraseDups.mpr (List.mem_map_of_mem hx))
  rw [hall] at hids
  have hparts : (sections out).flatten =
      ((out.map Prod.fst).eraseDups.flatMap fun id ↦ out.filter (·.1 = id)).map Prod.snd := by
    rw [sections, ← List.flatMap_def, List.map_flatMap]
    rfl
  rw [hparts]
  exact (hids.map Prod.snd).symm

namespace Attributed

variable {used : List ι} {out : List (ι × ε)} {owners before after : List (Option ι × List ε)}
  {items : List ε} {id : ι}

protected theorem nil : Attributed (ι := ι) (ε := ε) [] [] [] :=
  ⟨.nil, .nil, nofun, nofun⟩

/-- A new producer, which has nothing to say yet. -/
theorem add (h : Attributed used out owners) : Attributed used out (owners ++ [(none, [])]) := by
  refine ⟨?_, h.nodup, h.out_mem, fun o ho ↦ ?_⟩
  · rw [filterMap_middle]
    exact (List.append_nil _).symm ▸ h.ids
  · rcases List.mem_append.mp ho with ho | ho
    · exact h.owns o ho
    · rw [List.mem_singleton.mp ho]
      rfl

theorem mem_used {o : Option ι × List ε} (h : Attributed used out owners) (ho : o ∈ owners)
    (hid : o.1 = some id) : id ∈ used :=
  h.ids.mem_iff.mp (List.mem_filterMap.mpr ⟨o, ho, hid⟩)

/-- The ids of two producers differ. -/
theorem ne_of_mem (h : Attributed used out (before ++ (some id, items) :: after))
    {o : Option ι × List ε} (ho : o ∈ before ++ after) {id' : ι} (hid' : o.1 = some id') :
    id ≠ id' := by
  have hnodup := h.ids.nodup_iff.mpr h.nodup
  rw [filterMap_middle, Option.toList_some, List.singleton_append, List.nodup_middle,
    ← List.filterMap_append] at hnodup
  rintro rfl
  exact (List.nodup_cons.mp hnodup).1 (List.mem_filterMap.mpr ⟨o, ho, hid'⟩)

omit [DecidableEq ι] in
/-- What holds of the changed producer and of all the others holds of all. -/
theorem forall_middle {p : Option ι × List ε → Prop} {o : Option ι × List ε} (ho : p o)
    (hothers : ∀ o' ∈ before ++ after, p o') : ∀ o' ∈ before ++ o :: after, p o' := by
  intro o' ho'
  rcases List.mem_append.mp ho' with ho' | ho'
  · exact hothers o' (List.mem_append_left after ho')
  · rcases List.mem_cons.mp ho' with rfl | ho'
    · exact ho
    · exact hothers o' (List.mem_append_right before ho')

omit [DecidableEq ι] in
theorem mem_of_mem_others {o o' : Option ι × List ε} (h : o' ∈ before ++ after) :
    o' ∈ before ++ o :: after :=
  (List.Sublist.append_left (List.sublist_cons_self o after) before).subset h

/-- A producer with an id goes on. -/
theorem emit (h : Attributed used out (before ++ (some id, items) :: after)) (new : List ε) :
    Attributed used (out ++ new.map (id, ·)) (before ++ (some id, items ++ new) :: after) := by
  have hself : (some id, items) ∈ before ++ (some id, items) :: after :=
    List.mem_append_right before List.mem_cons_self
  refine ⟨?_, h.nodup, fun x hx ↦ ?_, forall_middle ?_ fun o ho ↦ ?_⟩
  · have hids := h.ids
    rw [filterMap_middle] at hids ⊢
    exact hids
  · rcases List.mem_append.mp hx with hx | hx
    · exact h.out_mem x hx
    · obtain ⟨item, -, rfl⟩ := List.mem_map.mp hx
      exact h.mem_used hself rfl
  · exact (labelled_append_self out id new).trans (congrArg (· ++ new) (h.owns _ hself))
  · exact (h.owns o (mem_of_mem_others ho)).append (fun id' hid' ↦ h.ne_of_mem ho hid') new

/-- A producer without an id gets a fresh one with its first items. -/
theorem assign (h : Attributed used out (before ++ (none, items) :: after)) (hid : id ∉ used)
    (new : List ε) : Attributed (id :: used) (out ++ new.map (id, ·))
      (before ++ (some id, items ++ new) :: after) := by
  have hself : (none, items) ∈ before ++ (none, items) :: after :=
    List.mem_append_right before List.mem_cons_self
  have hitems : items = [] := h.owns _ hself
  have hnone : labelled out id = [] := by
    rw [labelled, List.map_eq_nil_iff, List.filter_eq_nil_iff]
    rintro x hx heq
    exact hid (of_decide_eq_true heq ▸ h.out_mem x hx)
  refine ⟨?_, List.nodup_cons.mpr ⟨hid, h.nodup⟩, fun x hx ↦ ?_, forall_middle ?_ fun o ho ↦ ?_⟩
  · have hids := h.ids
    rw [filterMap_middle] at hids ⊢
    exact List.perm_middle.trans (hids.cons id)
  · rcases List.mem_append.mp hx with hx | hx
    · exact List.mem_cons_of_mem id (h.out_mem x hx)
    · obtain ⟨item, -, rfl⟩ := List.mem_map.mp hx
      exact List.mem_cons_self
  · rw [Owns, labelled_append_self, hnone, hitems]
  · refine (h.owns o (mem_of_mem_others ho)).append (fun id' hid' ↦ ?_) new
    rintro rfl
    exact hid (h.mem_used (mem_of_mem_others ho) hid')

/-- The ids of the producers are all different. -/
theorem nodup_ids (h : Attributed used out owners) : (owners.filterMap Prod.fst).Nodup :=
  h.ids.nodup_iff.mpr h.nodup

/-- Every item has a producer. -/
theorem exists_owner (h : Attributed used out owners) {x : ι × ε} (hx : x ∈ out) :
    ∃ o ∈ owners, o.1 = some x.1 :=
  List.mem_filterMap.mp (h.ids.mem_iff.mpr (h.out_mem x hx))

/-- The parts of the output are what its producers have produced, but for those that have produced
nothing. -/
theorem sections_perm (h : Attributed used out owners) :
    (sections out).Perm ((owners.map Prod.snd).filter fun items ↦ !items.isEmpty) := by
  have howned : ((owners.filterMap Prod.fst).filter fun id ↦ !(labelled out id).isEmpty).map
      (labelled out) = (owners.map Prod.snd).filter fun items ↦ !items.isEmpty := by
    have hall := h.owns
    clear h
    induction owners with
    | nil => rfl
    | cons o owners ih =>
      obtain ⟨ho, hrest⟩ := List.forall_mem_cons.mp hall
      obtain ⟨id, items⟩ := o
      rw [List.map_cons, List.filter_cons, ← ih hrest]
      cases id with
      | none =>
        have hitems : items = [] := ho
        rw [hitems]
        rfl
      | some id =>
        have hitems : labelled out id = items := ho
        rw [List.filterMap_cons, List.filter_cons, hitems]
        split_ifs
        · rw [List.map_cons, hitems]
        · rfl
  rw [← howned, sections]
  refine List.Perm.map _ ?_
  rw [List.perm_ext_iff_of_nodup (nodup_eraseDups _) (h.nodup_ids.filter _)]
  intro id
  -- an id is in use by some producer, and is seen when it labels something
  have hseen : id ∈ out.map Prod.fst ↔ (!(labelled out id).isEmpty) = true := by
    rw [Bool.not_eq_true', List.isEmpty_eq_false_iff_exists_mem, List.mem_map]
    constructor
    · rintro ⟨x, hx, rfl⟩
      exact ⟨x.2, List.mem_map_of_mem (List.mem_filter.mpr ⟨hx, decide_eq_true rfl⟩)⟩
    · rintro ⟨item, hitem⟩
      obtain ⟨x, hx, -⟩ := List.mem_map.mp hitem
      exact ⟨x, (List.mem_filter.mp hx).1, of_decide_eq_true (List.mem_filter.mp hx).2⟩
  rw [List.mem_eraseDups, List.mem_filter, hseen]
  refine (and_iff_right_of_imp fun hlabel ↦ ?_).symm
  obtain ⟨x, hx, rfl⟩ := List.mem_map.mp (hseen.mpr hlabel)
  exact h.ids.mem_iff.mpr (h.out_mem x hx)

end Attributed

end SqlReplay
