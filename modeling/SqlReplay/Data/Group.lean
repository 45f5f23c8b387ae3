import Mathlib.Data.List.Induction
import Mathlib.Data.List.Nodup
import SqlReplay.Data.Median
import SqlReplay.Data.SortedMap

/-!
# Grouping by a key

A sorted map from keys to samples, filled by going through a list once and putting each entry into
the sample of its key, which is made when the first entry comes
(`entry(key).or_default().push(entry)`). What is under a key is the sublist of the entries with that
key (`get?_group`), and that determines the map: lists that are permutations of each other have
groups under the same keys, in the same order, and the groups are permutations of each other
(`group_perm`).
-/

namespace SqlReplay

namespace SortedMap

variable {κ β γ : Type*} [LinearOrder κ]

/-- What is found under a key. -/
def getEntry (k : κ) : List (κ × β) → Option β
  | [] => none
  | e :: es => if k = e.1 then some e.2 else getEntry k es

/-- What lies under a key. -/
def get? (m : SortedMap κ β) (k : κ) : Option β := getEntry k m.entries

theorem getEntry_eq_none {k : κ} {es : List (κ × β)} (h : ∀ e ∈ es, k < e.1) :
    getEntry k es = none := by
  induction es with
  | nil => rfl
  | cons e es ih =>
    rw [getEntry, if_neg (h e List.mem_cons_self).ne]
    exact ih fun f hf ↦ h f (List.mem_cons_of_mem _ hf)

theorem mem_iff_getEntry {k : κ} {v : β} {es : List (κ × β)} (hes : es.Pairwise (·.1 < ·.1)) :
    (k, v) ∈ es ↔ getEntry k es = some v := by
  induction es with
  | nil => exact iff_of_false List.not_mem_nil (Option.some_ne_none v).symm
  | cons e es ih =>
    obtain ⟨he, htail⟩ := List.pairwise_cons.mp hes
    rw [List.mem_cons, getEntry]
    by_cases hk : k = e.1
    · -- The key stands first, so it does not stand behind.
      rw [if_pos hk, Option.some.injEq]
      constructor
      · rintro (h | h)
        · rw [← h]
        · exact absurd (he _ h) (hk ▸ lt_irrefl k)
      · rintro rfl
        exact Or.inl (Prod.ext hk rfl)
    · rw [if_neg hk, ← ih htail]
      exact or_iff_right fun h ↦ hk (congrArg Prod.fst h)

theorem mem_iff_get? {m : SortedMap κ β} {k : κ} {v : β} : (k, v) ∈ m ↔ m.get? k = some v :=
  mem_iff_getEntry m.sorted

/-! ## Updating under a key -/

/-- The entries with what lies under a key replaced, or added. -/
def upsertEntries (k : κ) (f : Option β → β) : List (κ × β) → List (κ × β)
  | [] => [(k, f none)]
  | e :: es =>
    if k < e.1 then (k, f none) :: e :: es
    else if k = e.1 then (k, f (some e.2)) :: es
    else e :: upsertEntries k f es

theorem mem_upsertEntries_imp {k : κ} {f : Option β → β} {es : List (κ × β)} {e : κ × β}
    (h : e ∈ upsertEntries k f es) : e.1 = k ∨ e ∈ es := by
  induction es with
  | nil => exact Or.inl (List.mem_singleton.mp h ▸ rfl)
  | cons d es ih =>
    rw [upsertEntries] at h
    split_ifs at h
    · rcases List.mem_cons.mp h with rfl | h
      · exact Or.inl rfl
      · exact Or.inr h
    · rcases List.mem_cons.mp h with rfl | h
      · exact Or.inl rfl
      · exact Or.inr (List.mem_cons_of_mem _ h)
    · rcases List.mem_cons.mp h with rfl | h
      · exact Or.inr List.mem_cons_self
      · exact (ih h).imp_right (List.mem_cons_of_mem _)

theorem sorted_upsertEntries (k : κ) (f : Option β → β) {es : List (κ × β)}
    (h : es.Pairwise (·.1 < ·.1)) : (upsertEntries k f es).Pairwise (·.1 < ·.1) := by
  induction es with
  | nil => exact List.pairwise_singleton _ _
  | cons e es ih =>
    obtain ⟨he, hes⟩ := List.pairwise_cons.mp h
    rw [upsertEntries]
    split_ifs with hlt heq
    · refine List.pairwise_cons.mpr ⟨fun d hd ↦ ?_, h⟩
      rcases List.mem_cons.mp hd with rfl | hd
      · exact hlt
      · exact hlt.trans (he d hd)
    · exact List.pairwise_cons.mpr ⟨fun d hd ↦ heq ▸ he d hd, hes⟩
    · refine List.pairwise_cons.mpr ⟨fun d hd ↦ ?_, ih hes⟩
      rcases mem_upsertEntries_imp hd with hk | hd
      · exact hk ▸ lt_of_le_of_ne (not_lt.mp hlt) (Ne.symm heq)
      · exact he d hd

/-- The map with what lies under a key replaced, or added. -/
def upsert (m : SortedMap κ β) (k : κ) (f : Option β → β) : SortedMap κ β :=
  ⟨upsertEntries k f m.entries, sorted_upsertEntries k f m.sorted⟩

theorem get?_upsert (m : SortedMap κ β) (k : κ) (f : Option β → β) (k' : κ) :
    (m.upsert k f).get? k' = if k' = k then some (f (m.get? k)) else m.get? k' := by
  obtain ⟨es, hes⟩ := m
  change getEntry k' (upsertEntries k f es) =
    if k' = k then some (f (getEntry k es)) else getEntry k' es
  induction es with
  | nil => rfl
  | cons e es ih =>
    obtain ⟨he, htail⟩ := List.pairwise_cons.mp hes
    rw [upsertEntries]
    by_cases hlt : k < e.1
    · -- A new entry, in front of all others.
      have hnone : getEntry k (e :: es) = none := getEntry_eq_none fun d hd ↦ by
        rcases List.mem_cons.mp hd with rfl | hd
        · exact hlt
        · exact hlt.trans (he d hd)
      rw [if_pos hlt, hnone, getEntry]
    · rw [if_neg hlt]
      by_cases heq : k = e.1
      · rw [if_pos heq, getEntry]
        by_cases hk : k' = k
        · rw [if_pos hk, if_pos hk, getEntry, if_pos heq]
        · rw [if_neg hk, if_neg hk, getEntry, if_neg (heq ▸ hk)]
      · rw [if_neg heq, getEntry, ih htail, getEntry, getEntry, if_neg heq]
        by_cases hk : k' = e.1
        · rw [if_pos hk, if_pos hk, if_neg fun h ↦ heq (h.symm.trans hk)]
        · rw [if_neg hk, if_neg hk]

/-- A sum over the entries changes by what changes under the key. -/
theorem sum_upsert (g : β → ℕ) (m : SortedMap κ β) (k : κ) (f : Option β → β) :
    ((m.upsert k f).entries.map fun e ↦ g e.2).sum + ((m.get? k).map g).getD 0 =
      (m.entries.map fun e ↦ g e.2).sum + g (f (m.get? k)) := by
  obtain ⟨es, hes⟩ := m
  change ((upsertEntries k f es).map fun e ↦ g e.2).sum + ((getEntry k es).map g).getD 0 =
    (es.map fun e ↦ g e.2).sum + g (f (getEntry k es))
  induction es with
  | nil => exact Nat.add_comm _ _
  | cons e es ih =>
    obtain ⟨he, htail⟩ := List.pairwise_cons.mp hes
    rw [upsertEntries]
    by_cases hlt : k < e.1
    · have hnone : getEntry k (e :: es) = none := getEntry_eq_none fun d hd ↦ by
        rcases List.mem_cons.mp hd with rfl | hd
        · exact hlt
        · exact hlt.trans (he d hd)
      rw [if_pos hlt, hnone, List.map_cons, List.sum_cons, Option.map_none, Option.getD_none,
        Nat.add_zero, Nat.add_comm]
    · rw [if_neg hlt]
      by_cases heq : k = e.1
      · rw [if_pos heq, getEntry, if_pos heq, List.map_cons, List.map_cons, List.sum_cons,
          List.sum_cons, Option.map_some, Option.getD_some]
        dsimp only
        omega
      · rw [if_neg heq, getEntry, if_neg heq, List.map_cons, List.map_cons, List.sum_cons,
          List.sum_cons, Nat.add_assoc, ih htail, Nat.add_assoc]

/-! ## Maps that agree up to a relation -/

/-- Sorted maps with related values under every key have related entries, one by one. -/
theorem forall₂_entries {R : β → γ → Prop} {m : SortedMap κ β} {m' : SortedMap κ γ}
    (h : ∀ k, Option.Rel R (m.get? k) (m'.get? k)) :
    List.Forall₂ (fun e e' ↦ e.1 = e'.1 ∧ R e.2 e'.2) m.entries m'.entries := by
  obtain ⟨es, hes⟩ := m
  obtain ⟨ds, hds⟩ := m'
  replace h : ∀ k, Option.Rel R (getEntry k es) (getEntry k ds) := h
  change List.Forall₂ (fun e e' ↦ e.1 = e'.1 ∧ R e.2 e'.2) es ds
  induction es generalizing ds with
  | nil =>
    cases ds with
    | nil => exact List.Forall₂.nil
    | cons d ds =>
      have hd := h d.1
      rw [getEntry, getEntry, if_pos rfl] at hd
      cases hd
  | cons e es ih =>
    cases ds with
    | nil =>
      have he := h e.1
      rw [getEntry.eq_2, if_pos rfl, getEntry] at he
      cases he
    | cons d ds =>
      obtain ⟨he, hes'⟩ := List.pairwise_cons.mp hes
      obtain ⟨hd, hds'⟩ := List.pairwise_cons.mp hds
      -- The least keys agree: the smaller of two would be missing on the other side.
      have hkey : e.1 = d.1 := by
        rcases lt_trichotomy e.1 d.1 with hlt | heq | hgt
        · have hk := h e.1
          rw [getEntry, if_pos rfl, getEntry_eq_none fun d' hd' ↦ by
            rcases List.mem_cons.mp hd' with rfl | hd'
            · exact hlt
            · exact hlt.trans (hd d' hd')] at hk
          cases hk
        · exact heq
        · have hk := h d.1
          rw [getEntry_eq_none fun e' he' ↦ by
            rcases List.mem_cons.mp he' with rfl | he'
            · exact hgt
            · exact hgt.trans (he e' he'), getEntry, if_pos rfl] at hk
          cases hk
      have hval := h e.1
      rw [getEntry, if_pos rfl, getEntry, if_pos hkey] at hval
      refine List.Forall₂.cons ⟨hkey, ?_⟩ (ih hes' ds hds' fun k ↦ ?_)
      · cases hval
        assumption
      · by_cases hk : k = e.1
        · rw [getEntry_eq_none (hk ▸ he), getEntry_eq_none (hk ▸ hkey ▸ hd)]
          exact Option.Rel.none
        · have hrest := h k
          rwa [getEntry, if_neg hk, getEntry, if_neg (hkey ▸ hk)] at hrest

/-- The keys of a sorted map differ from each other. -/
theorem nodup_keys (m : SortedMap κ β) : (m.entries.map Prod.fst).Nodup :=
  (List.pairwise_map.mpr m.sorted).imp ne_of_lt

end SortedMap

/-! ## Groups -/

section Group

variable {κ α : Type*} [LinearOrder κ] (key : α → κ)

/-- An entry put into the sample of its key. -/
def pushUnder (m : SortedMap κ (Sample α)) (a : α) : SortedMap κ (Sample α) :=
  m.upsert (key a) fun s ↦ (s.map fun s ↦ s.push a).getD (Sample.single a)

/-- The entries of a list by their keys. -/
def group (l : List α) : SortedMap κ (Sample α) := l.foldl (pushUnder key) SortedMap.empty

/-- Under a key lie the entries with that key. -/
theorem get?_group (l : List α) (k : κ) :
    (group key l).get? k = Sample.ofList? (l.filter fun a ↦ key a = k) := by
  unfold group
  induction l using List.reverseRecOn with
  | nil => rfl
  | append_singleton l a ih =>
    rw [List.foldl_append, List.foldl_cons, List.foldl_nil, pushUnder, SortedMap.get?_upsert,
      List.filter_append, List.filter_cons, List.filter_nil]
    by_cases hk : key a = k
    · rw [if_pos hk.symm, if_pos (decide_eq_true hk), Sample.ofList?_concat, hk, ih]
    · rw [if_neg (Ne.symm hk), if_neg (mt of_decide_eq_true hk), List.append_nil, ih]

theorem mem_group {l : List α} {k : κ} {s : Sample α} :
    (k, s) ∈ group key l ↔ s.toList = l.filter fun a ↦ key a = k := by
  rw [SortedMap.mem_iff_get?, get?_group, Sample.ofList?_eq_some]

/-- What is in a group is in the list, with the key of the group. -/
theorem mem_of_mem_group {l : List α} {k : κ} {s : Sample α} (h : (k, s) ∈ group key l) {a : α}
    (ha : a ∈ s.toList) : a ∈ l ∧ key a = k := by
  rw [(mem_group key).mp h, List.mem_filter] at ha
  exact ⟨ha.1, of_decide_eq_true ha.2⟩

/-- Every entry of the list is in a group. -/
theorem exists_mem_group {l : List α} {a : α} (ha : a ∈ l) :
    ∃ s, (key a, s) ∈ group key l ∧ a ∈ s.toList := by
  have hmem : a ∈ l.filter fun b ↦ key b = key a :=
    List.mem_filter.mpr ⟨ha, decide_eq_true rfl⟩
  cases hs : Sample.ofList? (l.filter fun b ↦ key b = key a) with
  | none =>
    rw [Sample.ofList?_eq_none.mp hs] at hmem
    exact absurd hmem List.not_mem_nil
  | some s =>
    have hlist := Sample.ofList?_eq_some.mp hs
    exact ⟨s, (mem_group key).mpr hlist, hlist ▸ hmem⟩

/-- The groups of a permutation: the same keys in the same order, and permuted groups. -/
theorem group_perm {l l' : List α} (h : l.Perm l') :
    List.Forall₂ (fun e e' ↦ e.1 = e'.1 ∧ e.2.toList.Perm e'.2.toList)
      (group key l).entries (group key l').entries := by
  refine SortedMap.forall₂_entries (R := fun s s' : Sample α ↦ s.toList.Perm s'.toList) fun k ↦ ?_
  rw [get?_group, get?_group]
  have hp := h.filter fun a ↦ decide (key a = k)
  cases hs : Sample.ofList? (l.filter fun a ↦ key a = k) with
  | none =>
    rw [Sample.ofList?_eq_none.mp hs] at hp
    rw [hp.nil_eq.symm]
    exact Option.Rel.none
  | some s =>
    cases hs' : Sample.ofList? (l'.filter fun a ↦ key a = k) with
    | none =>
      rw [Sample.ofList?_eq_none.mp hs'] at hp
      exact absurd (Sample.ofList?_eq_some.mp hs ▸ hp.eq_nil) (List.cons_ne_nil _ _)
    | some s' =>
      refine Option.Rel.some ?_
      rwa [Sample.ofList?_eq_some.mp hs, Sample.ofList?_eq_some.mp hs']

/-! ## Groups of one value each -/

/-- The first entries of the groups. -/
def firsts (l : List α) : List α := (group key l).entries.map fun e ↦ e.2.first

variable {l l₀ : List α}

theorem key_first {e : κ × Sample α} (he : e ∈ (group key l).entries) : key e.2.first = e.1 :=
  (mem_of_mem_group key he e.2.first_mem).2

theorem pairwise_firsts (l : List α) : (firsts key l).Pairwise fun a b ↦ key a < key b := by
  refine List.pairwise_map.mpr ((group key l).sorted.imp_of_mem fun ha hb hab ↦ ?_)
  rwa [key_first key ha, key_first key hb]

theorem nodup_firsts (l : List α) : (firsts key l).Nodup :=
  (pairwise_firsts key l).imp fun hab h ↦ (h ▸ hab).false

/-- In a list where each key has one entry, a group consists of copies of it. -/
theorem eq_first_of_mem (hmem : ∀ a ∈ l, a ∈ l₀) (hnodup : (l₀.map key).Nodup) {e : κ × Sample α}
    (he : e ∈ (group key l).entries) {a : α} (ha : a ∈ e.2.toList) : a = e.2.first := by
  obtain ⟨hal, hak⟩ := mem_of_mem_group key he ha
  obtain ⟨hfl, hfk⟩ := mem_of_mem_group key he e.2.first_mem
  exact List.inj_on_of_nodup_map hnodup (hmem _ hal) (hmem _ hfl) (hak.trans hfk.symm)

/-- Then the groups stand for the entries. -/
theorem firsts_perm (hmem : ∀ a, a ∈ l ↔ a ∈ l₀) (hnodup : (l₀.map key).Nodup) :
    (firsts key l).Perm l₀ := by
  rw [List.perm_ext_iff_of_nodup (nodup_firsts key l) (List.Nodup.of_map key hnodup)]
  intro a
  constructor
  · intro ha
    obtain ⟨e, he, rfl⟩ := List.mem_map.mp ha
    exact (hmem _).mp (mem_of_mem_group key he e.2.first_mem).1
  · intro ha
    obtain ⟨s, hs, has⟩ := exists_mem_group key ((hmem a).mpr ha)
    have hfirst := eq_first_of_mem key (fun b hb ↦ (hmem b).mp hb) hnodup hs has
    exact List.mem_map.mpr ⟨(key a, s), hs, hfirst.symm⟩

/-- In the order of their keys they are the entries. -/
theorem firsts_eq (hmem : ∀ a, a ∈ l ↔ a ∈ l₀) (hsorted : l₀.Pairwise fun a b ↦ key a < key b) :
    firsts key l = l₀ := by
  have hnodup : (l₀.map key).Nodup := (List.pairwise_map.mpr hsorted).imp ne_of_lt
  exact List.Perm.eq_of_pairwise (fun _ _ _ _ hab hba ↦ absurd hba hab.not_gt)
    (pairwise_firsts key l) hsorted (firsts_perm key hmem hnodup)

end Group

end SqlReplay
