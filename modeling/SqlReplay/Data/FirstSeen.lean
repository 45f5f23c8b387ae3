import Mathlib.Data.List.Induction
import Mathlib.Data.List.Nodup
import Mathlib.Logic.Function.Basic

/-!
# In the order of first appearance

Grouping a stream by a key, one item after the other: a list of the keys in the order they were
first seen, and a map with what has been gathered under each of them. Whatever is gathered, the keys
are `List.eraseDups` of the stream's, and what lies under a key depends on the items of this key
only (`Groups.gatherAll`).
-/

namespace SqlReplay

section EraseDups

variable {κ : Type*} [BEq κ] [LawfulBEq κ]

theorem eraseDups_concat_of_mem {ks : List κ} {k : κ} (h : k ∈ ks) :
    (ks ++ [k]).eraseDups = ks.eraseDups := by
  have hnone : [k].removeAll ks = [] := by
    simp [List.removeAll, h]
  rw [List.eraseDups_append, hnone, List.eraseDups_nil, List.append_nil]

theorem eraseDups_concat_of_notMem {ks : List κ} {k : κ} (h : k ∉ ks) :
    (ks ++ [k]).eraseDups = ks.eraseDups ++ [k] := by
  have hall : [k].removeAll ks = [k] := by
    simp [List.removeAll, h]
  rw [List.eraseDups_append, hall, List.eraseDups_cons, List.filter_nil, List.eraseDups_nil]

theorem nodup_eraseDups (ks : List κ) : ks.eraseDups.Nodup := by
  induction ks using List.reverseRecOn with
  | nil => exact List.nodup_nil
  | append_singleton ks k ih =>
    by_cases h : k ∈ ks
    · rwa [eraseDups_concat_of_mem h]
    · rw [eraseDups_concat_of_notMem h]
      apply ih.append (List.nodup_singleton k)
      intro j hj hjk
      rw [List.mem_singleton.mp hjk] at hj
      exact h (List.mem_eraseDups.mp hj)

end EraseDups

/-! ## Gathering under keys -/

/-- The keys seen so far, and what has been gathered under each. -/
structure Groups (κ β : Type*) where
  order : List κ
  groups : κ → Option β

namespace Groups

variable {κ ε β : Type*} [DecidableEq κ]

/-- One more item of a key; `fresh` is what a new key starts from. -/
def gather (fresh : κ → β) (key : ε → κ) (add : β → ε → β) (g : Groups κ β) (e : ε) : Groups κ β :=
  match g.groups (key e) with
  | some b => { g with groups := Function.update g.groups (key e) (some (add b e)) }
  | none =>
    ⟨g.order ++ [key e], Function.update g.groups (key e) (some (add (fresh (key e)) e))⟩

/-- Nothing seen yet. -/
def empty : Groups κ β := ⟨[], fun _ ↦ none⟩

/-- What is gathered from a stream: the keys in the order they first appear, and under each the
items that have it. -/
def of (fresh : κ → β) (key : ε → κ) (add : β → ε → β) (es : List ε) : Groups κ β :=
  ⟨(es.map key).eraseDups, fun k ↦
    if k ∈ es.map key then some ((es.filter (key · = k)).foldl add (fresh k)) else none⟩

variable (fresh : κ → β) (key : ε → κ) (add : β → ε → β)

theorem gather_of (es : List ε) (e : ε) :
    (of fresh key add es).gather fresh key add e = of fresh key add (es ++ [e]) := by
  have hfilter (k : κ) : (es ++ [e]).filter (key · = k) =
      es.filter (key · = k) ++ if key e = k then [e] else [] := by
    rw [List.filter_append]
    split_ifs with h <;> simp [h]
  have hmem (k : κ) (hk : k ≠ key e) : k ∈ (es ++ [e]).map key ↔ k ∈ es.map key := by
    simp [hk]
  have hupdate (b : β) (hb : some b = (of fresh key add (es ++ [e])).groups (key e)) :
      Function.update (of fresh key add es).groups (key e) (some b) =
        (of fresh key add (es ++ [e])).groups := by
    funext k
    by_cases hk : k = key e
    · rw [hk, Function.update_self, hb]
    · rw [Function.update_of_ne hk]
      simp only [of, hfilter, if_neg (Ne.symm hk), List.append_nil, hmem k hk]
  have hlast : (of fresh key add (es ++ [e])).groups (key e) =
      some (add ((es.filter (key · = key e)).foldl add (fresh (key e))) e) := by
    simp [of, List.foldl_append]
  have horder : (of fresh key add (es ++ [e])).order = (es.map key ++ [key e]).eraseDups := by
    rw [of, List.map_append, List.map_singleton]
  by_cases h : key e ∈ es.map key
  · have hsome : (of fresh key add es).groups (key e) =
        some ((es.filter (key · = key e)).foldl add (fresh (key e))) := if_pos h
    rw [gather, hsome]
    dsimp only
    rw [hupdate _ hlast.symm]
    rw [eraseDups_concat_of_mem h] at horder
    exact congrArg (Groups.mk · _) horder.symm
  · have hnone : (of fresh key add es).groups (key e) = none := if_neg h
    have hnil : es.filter (key · = key e) = [] := by
      rw [List.filter_eq_nil_iff]
      exact fun x hx heq ↦ h (of_decide_eq_true heq ▸ List.mem_map_of_mem hx)
    rw [gather, hnone]
    dsimp only
    rw [hnil, List.foldl_nil] at hlast
    rw [hupdate _ hlast.symm]
    rw [eraseDups_concat_of_notMem h] at horder
    exact congrArg (Groups.mk · _) horder.symm

/-- Gathering item by item gives the groups of the stream. -/
theorem gatherAll (es : List ε) :
    es.foldl (gather fresh key add) empty = of fresh key add es := by
  induction es using List.reverseRecOn with
  | nil => rfl
  | append_singleton es e ih => rw [List.foldl_concat, ih, gather_of]

variable {fresh key add}

theorem of_groups {es : List ε} {k : κ} (h : k ∈ (of fresh key add es).order) :
    (of fresh key add es).groups k = some ((es.filter (key · = k)).foldl add (fresh k)) :=
  if_pos (List.mem_eraseDups.mp h)

end Groups

end SqlReplay
