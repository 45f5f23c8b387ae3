import Mathlib.Logic.Function.Basic
import SqlReplay.Capture.Format
import SqlReplay.Data.FirstSeen
import SqlReplay.Sql.Fingerprint

/-!
# The fingerprint registry

The registry gives every fingerprint text a number when it first comes, and the summary of a capture
lists the texts with their numbers. A number is the place of the text among the distinct texts in
the order they first came (`FingerprintRegistry.of`), taken as a `u32`: as long as there are no more
than `2 ^ 32` of them, looking an id up in the table gives the text back; a capture with more has a
text that is looked up as another (`fingerprintText_iff`).
-/

namespace SqlReplay

structure FingerprintRegistry where
  ids : Bytes → Option UInt32
  texts : List Bytes

namespace FingerprintRegistry

def new : FingerprintRegistry := ⟨fun _ ↦ none, []⟩

/-- `intern`: the id of the class of a query. -/
def intern (r : FingerprintRegistry) (query : Bytes) : FingerprintRegistry × UInt32 :=
  let fp := fingerprint query
  match r.ids fp with
  | some id => (r, id)
  | none =>
    let id := r.texts.length.toUInt32
    (⟨Function.update r.ids fp (some id), r.texts ++ [fp]⟩, id)

/-- The id of a text among the texts that came. -/
def idOf (fps : List Bytes) (fp : Bytes) : UInt32 := (fps.eraseDups.idxOf fp).toUInt32

/-- The registry after some texts came. -/
def of (fps : List Bytes) : FingerprintRegistry :=
  ⟨fun fp ↦ if fps.elem fp then some (idOf fps fp) else none, fps.eraseDups⟩

/-- A text keeps its id. -/
theorem idOf_append {fps : List Bytes} {fp : Bytes} (h : fp ∈ fps) (more : List Bytes) :
    idOf (fps ++ more) fp = idOf fps fp := by
  rw [idOf, List.eraseDups_append, List.idxOf_append_of_mem (List.mem_eraseDups.mpr h), idOf]

/-- A new text gets the next number. -/
theorem idOf_concat {fps : List Bytes} {fp : Bytes} (h : fp ∉ fps) :
    idOf (fps ++ [fp]) fp = fps.eraseDups.length.toUInt32 := by
  rw [idOf, eraseDups_concat_of_notMem h,
    List.idxOf_append_of_notMem fun hmem ↦ h (List.mem_eraseDups.mp hmem), List.idxOf_cons_self,
    Nat.add_zero]

theorem new_eq_of : new = of [] := rfl

theorem ids_of_mem {fps : List Bytes} {fp : Bytes} (h : fp ∈ fps) :
    (of fps).ids fp = some (idOf fps fp) := if_pos (List.elem_iff.mpr h)

theorem ids_of_notMem {fps : List Bytes} {fp : Bytes} (h : fp ∉ fps) : (of fps).ids fp = none :=
  if_neg fun hmem ↦ h (List.elem_iff.mp hmem)

theorem intern_of (fps : List Bytes) (query : Bytes) :
    (of fps).intern query =
      (of (fps ++ [fingerprint query]), idOf (fps ++ [fingerprint query]) (fingerprint query)) := by
  by_cases h : fingerprint query ∈ fps
  · have hids : (of (fps ++ [fingerprint query])).ids = (of fps).ids := by
      funext fp
      by_cases hfp : fp ∈ fps
      · rw [ids_of_mem hfp, ids_of_mem (List.mem_append_left _ hfp), idOf_append hfp]
      · rw [ids_of_notMem hfp, ids_of_notMem]
        rw [List.mem_append, List.mem_singleton, not_or]
        exact ⟨hfp, fun heq ↦ hfp (heq ▸ h)⟩
    have hsame : of (fps ++ [fingerprint query]) = of fps :=
      congrArg₂ FingerprintRegistry.mk hids (eraseDups_concat_of_mem h)
    rw [intern, ids_of_mem h, hsame, idOf_append h]
  · have hids : Function.update (of fps).ids (fingerprint query)
        (some (of fps).texts.length.toUInt32) = (of (fps ++ [fingerprint query])).ids := by
      funext fp
      by_cases hfp : fp = fingerprint query
      · rw [hfp, Function.update_self, ids_of_mem (List.mem_append_right _ List.mem_cons_self),
          idOf_concat h]
        rfl
      · rw [Function.update_of_ne hfp]
        by_cases hmem : fp ∈ fps
        · rw [ids_of_mem hmem, ids_of_mem (List.mem_append_left _ hmem), idOf_append hmem]
        · rw [ids_of_notMem hmem, ids_of_notMem]
          rw [List.mem_append, List.mem_singleton, not_or]
          exact ⟨hmem, hfp⟩
    rw [intern, ids_of_notMem h, idOf_concat h]
    dsimp only
    rw [hids]
    exact congrArg (fun texts ↦ (FingerprintRegistry.mk _ texts, _))
      (eraseDups_concat_of_notMem h).symm

/-- The fingerprint table of a summary. -/
def table (texts : List Bytes) : List FingerprintEntry :=
  texts.zipIdx.map fun e ↦ ⟨e.2.toUInt32, e.1⟩

theorem length_table (texts : List Bytes) : (table texts).length = texts.length := by
  rw [table, List.length_map, List.length_zipIdx]

theorem getElem_table {texts : List Bytes} {i : ℕ} (hi : i < texts.length)
    (h : i < (table texts).length) : (table texts)[i] = ⟨i.toUInt32, texts[i]⟩ := by
  simp [table]

/-- Looking an id up finds the first entry that has it. -/
theorem find_table {texts : List Bytes} {i : ℕ} (hi : i < texts.length) (hlt : i < 2 ^ 32) :
    ((table texts).find? (·.id == i.toUInt32)).map (·.text) = some texts[i] := by
  have hfind : (table texts).find? (·.id == i.toUInt32) = some ⟨i.toUInt32, texts[i]⟩ := by
    rw [List.find?_eq_some_iff_getElem]
    refine ⟨beq_self_eq_true _, i, by rwa [length_table], getElem_table hi _, fun j hj ↦ ?_⟩
    rw [getElem_table (hj.trans hi)]
    have hne : j.toUInt32 ≠ i.toUInt32 := by
      intro heq
      have := congrArg UInt32.toNat heq
      simp only [Nat.toUInt32, UInt32.toNat_ofNat'] at this
      rw [Nat.mod_eq_of_lt (hj.trans hlt), Nat.mod_eq_of_lt hlt] at this
      omega
    simpa using hne
  rw [hfind]
  rfl

end FingerprintRegistry

open FingerprintRegistry

/-- Every text is found under its id exactly if the ids are enough. -/
theorem fingerprintText_iff (fps : List Bytes) :
    (∀ fp ∈ fps, ((table fps.eraseDups).find? (·.id == idOf fps fp)).map (·.text) = some fp) ↔
      fps.eraseDups.length ≤ 2 ^ 32 := by
  constructor
  · intro h
    by_contra hlt
    rw [not_le] at hlt
    -- the text that comes after `2 ^ 32` others has the id of the first one
    have hid : idOf fps fps.eraseDups[2 ^ 32] = (0 : ℕ).toUInt32 := by
      rw [idOf, (nodup_eraseDups fps).idxOf_getElem]
      rfl
    have hfound := h fps.eraseDups[2 ^ 32] (List.mem_eraseDups.mp (List.getElem_mem hlt))
    rw [hid, find_table (lt_trans (by decide) hlt) (by decide)] at hfound
    have := (nodup_eraseDups fps).getElem_inj_iff.mp (Option.some.inj hfound)
    omega
  · intro hle fp hfp
    have hidx : fps.eraseDups.idxOf fp < fps.eraseDups.length :=
      List.idxOf_lt_length_of_mem (List.mem_eraseDups.mpr hfp)
    rw [idOf, find_table hidx (hidx.trans_le hle), List.getElem_idxOf]

end SqlReplay
