import SqlReplay.Replay.Termination

/-!
# Every connection is closed once

A session closes its connection by disconnecting or by letting a dead one go, and behind the last
session the pass closes what is on the shelf (`PassState.drain`). A connection that has been closed
is gone: no session holds it and it is not on the shelf, and since connections come from the shelf
or are new, it stays so (`Gone.step`). Hence it is neither used nor closed again. Conversely a
session returns with nothing in its hands, so what has been opened and is not on the shelf has been
closed.
-/

namespace SqlReplay

open Program Replay

variable {o : ReplayOptions} {T : TargetDb} {n : ℕ} {s s' : PassState} {k : Fin n → Tenancy}
  {i : Fin n} {op : Op} {r : op.Res} {conn : ConnId}

/-- `ConnPool::drain`: the connections on the shelf are closed, from the one that was put there
first. -/
def PassState.drain (s : PassState) : List ConnId := (s.idle.map IdleConn.conn).reverse

/-- The connection an operation has opened. -/
def Op.opens (op : Op) (r : op.Res) : Option ConnId :=
  match op, r with
  | .connect, .ok conn => some conn
  | _, _ => none

/-! ## Connections that are gone -/

namespace Replay

/-- What a session holds behind an operation is new, from the shelf, or what it held before. -/
theorem holds_origin {held : Option IdleConn} {pc : IdleConn} (hpossible : s.possible op r = true)
    (hheld : holds o T held op r = some pc) :
    pc.conn = s.opened ∨ pc ∈ s.idle ∨ ∃ pc', held = some pc' ∧ pc'.conn = pc.conn := by
  have hmoved (sql : Bytes) (hpc : held.map (·.moved T sql) = some pc) :
      ∃ pc', held = some pc' ∧ pc'.conn = pc.conn := by
    obtain ⟨pc', hheld', rfl⟩ := Option.map_eq_some_iff.mp hpc
    exact ⟨pc', hheld', (IdleConn.moved_conn T pc' sql).symm⟩
  cases op with
  | connect =>
    rcases r with e | conn
    · exact .inr (.inr ⟨pc, hheld, rfl⟩)
    · obtain rfl := Option.some.inj hheld
      exact .inl (by simpa [PassState.possible] using hpossible)
  | popIdle =>
    obtain rfl : r = s.idle.head? := by simpa [PassState.possible] using hpossible
    exact .inr (.inl (List.mem_of_mem_head? hheld))
  | use conn db | query conn sql | queryChecksum conn sql =>
    rcases r with e | result
    · exact .inr (.inr ⟨pc, hheld, rfl⟩)
    · exact .inr (.inr (hmoved _ hheld))
  | checkin _ | disconnect _ | dropConn _ => exact absurd hheld (by simp [holds])
  | _ => exact .inr (.inr ⟨pc, hheld, rfl⟩)

end Replay

/-- A connection that has been opened, and is neither on the shelf nor with a session. -/
structure Gone (s : PassState) (k : Fin n → Tenancy) (conn : ConnId) : Prop
    extends Free s (fun i ↦ (k i).held) conn where
  lt : conn < s.opened

namespace Gone

/-- A connection that is gone stays gone. -/
theorem step (h : Gone s k conn) (hallows : (tenancy o T).allows (k i) op)
    (hpossible : s.possible op r = true) :
    Gone (s.after o T op r) (Function.update k i ((tenancy o T).learn (k i) op r)) conn := by
  refine ⟨⟨fun pc hpc ↦ ?_, fun j pc hheld ↦ ?_⟩, h.lt.trans_le ?_⟩
  · cases op with
    | popIdle => exact h.idle pc (List.mem_of_mem_tail hpc)
    | checkin pc' =>
      rcases List.mem_cons.mp hpc with rfl | hpc
      · exact h.held i pc hallows.2.2
      · exact h.idle pc hpc
    | _ => exact h.idle pc hpc
  · by_cases hj : j = i
    · subst hj
      rw [Function.update_self] at hheld
      rcases holds_origin hpossible hheld with hnew | hidle | ⟨pc', hheld', hconn⟩
      · exact hnew ▸ h.lt.ne'
      · exact h.idle pc hidle
      · exact hconn ▸ h.held j pc' hheld'
    · rw [Function.update_of_ne hj] at hheld
      exact h.held j pc hheld
  · cases op with
    | connect => rcases r with e | conn <;> simp [PassState.after]
    | _ => exact le_rfl

/-- Closing a connection makes it gone. -/
theorem of_closes (h : Custody s fun j ↦ (k j).held) (hallows : (tenancy o T).allows (k i) op)
    (hcloses : op.closes = some conn) :
    Gone (s.after o T op r) (Function.update k i ((tenancy o T).learn (k i) op r)) conn := by
  -- the session lets go of what it held, and the rest is as it was
  have hdrop {pc : IdleConn} (hheld : (k i).held = some pc)
      (hnone : ((tenancy o T).learn (k i) op r).held = none) :
      Gone s (Function.update k i ((tenancy o T).learn (k i) op r)) pc.conn := by
    refine ⟨⟨h.held_ne_idle i pc hheld, fun j pc' hheld' ↦ ?_⟩, h.held_lt i pc hheld⟩
    by_cases hj : j = i
    · subst hj
      rw [Function.update_self, hnone] at hheld'
      exact absurd hheld' (by simp)
    · rw [Function.update_of_ne hj] at hheld'
      exact fun hconn ↦ hj (h.held_inj j i pc' pc hheld' hheld hconn)
  cases op with
  | disconnect conn' =>
    obtain ⟨pc, ⟨-, hheld⟩, rfl⟩ := hallows
    obtain rfl := Option.some.inj hcloses
    obtain ⟨hfree, hlt⟩ := hdrop hheld rfl
    exact ⟨⟨hfree.idle, hfree.held⟩, hlt⟩
  | dropConn conn' =>
    obtain ⟨pc, hheld, rfl⟩ := hallows
    obtain rfl := Option.some.inj hcloses
    obtain ⟨hfree, hlt⟩ := hdrop hheld rfl
    exact ⟨⟨hfree.idle, hfree.held⟩, hlt⟩
  | _ => exact absurd hcloses (by simp [Op.closes])

end Gone

/-! ## Passes -/

namespace Pass

variable {sessions : Fin n → ReplaySession o} {c : Pass n}

/-- The connections that the sessions have opened, in order. -/
def openings (c : Pass n) : List ConnId := c.log.filterMap fun e ↦ e.2.1.opens e.2.2

/-- The connections that the sessions have closed, in order. -/
def closings (c : Pass n) : List ConnId := c.log.filterMap fun e ↦ e.2.1.closes

/-- What has been closed is gone. -/
theorem Reaches.gone (h : Reaches o T sessions c) {e : Fin n × ((op : Op) × op.Res)}
    (he : e ∈ c.log) (hcloses : e.2.1.closes = some conn) :
    Gone c.shared (tenancies o T c) conn := by
  obtain ⟨shutdown, hrun⟩ := h
  have hinv := hrun.invariant
    (fun s k ↦ Tenure o s k ∧ ∀ i, ∀ conn ∈ (k i).closed, Gone s k conn)
    (fun i ↦ runSession_tenancy (T := T) (sessions i).info (sessions i).events)
    ⟨.new o shutdown, fun i conn hconn ↦ absurd hconn List.not_mem_nil⟩
    (fun s k i op r s' ⟨htenure, hgone⟩ hallows hresponds ↦ ?_)
    fun s k s' ⟨htenure, hgone⟩ hflips ↦ ?_
  · refine hinv.2 e.1 conn ((mem_after_closed _ _).mpr (.inr ⟨e.2, ?_, hcloses⟩))
    exact List.mem_map.mpr ⟨e, List.mem_filter.mpr ⟨he, decide_eq_true rfl⟩, rfl⟩
  · refine ⟨htenure.step hallows hresponds, fun j conn hconn ↦ ?_⟩
    obtain ⟨hpossible, rfl⟩ := hresponds
    by_cases hj : j = i
    · subst hj
      rw [Function.update_self] at hconn
      rcases List.mem_append.mp hconn with hconn | hconn
      · exact .of_closes htenure.custody hallows (Option.mem_toList.mp hconn)
      · exact (hgone j conn hconn).step hallows hpossible
    · rw [Function.update_of_ne hj] at hconn
      exact (hgone j conn hconn).step hallows hpossible
  · refine ⟨htenure.flips hflips, fun i conn hconn ↦ ?_⟩
    obtain rfl := hflips
    exact ⟨⟨(hgone i conn hconn).idle, (hgone i conn hconn).held⟩, (hgone i conn hconn).lt⟩

/-- An operation that closes a connection closes one that is held. -/
theorem held_of_closes (h : (tenancy o T).allows (tenancies o T c i) op)
    (hcloses : op.closes = some conn) :
    ∃ pc, (tenancies o T c i).held = some pc ∧ pc.conn = conn := by
  cases op with
  | disconnect conn' =>
    obtain rfl := Option.some.inj hcloses
    obtain ⟨pc, ⟨-, hheld⟩, hconn⟩ := h
    exact ⟨pc, hheld, hconn⟩
  | dropConn conn' =>
    obtain rfl := Option.some.inj hcloses
    exact h
  | _ => exact absurd hcloses (by simp [Op.closes])

/-- Behind its closing a connection is neither used nor closed. -/
theorem Reaches.closed_pairwise (h : Reaches o T sessions c) : c.log.Pairwise fun e e' ↦
    ∀ conn, e.2.1.closes = some conn → e'.2.1.on ≠ some conn ∧ e'.2.1.closes ≠ some conn := by
  obtain ⟨shutdown, hrun⟩ := h
  induction hrun with
  | refl => exact List.Pairwise.nil
  | @tail c c' hrun hstep ih =>
    have hreaches : Reaches o T sessions c := ⟨shutdown, hrun⟩
    cases hstep with
    | env _ => exact ih
    | @act i op next r s' htask heffect =>
      refine List.pairwise_append.mpr ⟨ih, List.pairwise_singleton _ _, fun e he e' he' ↦ ?_⟩
      obtain rfl := List.mem_singleton.mp he'
      intro conn hcloses
      have hgone := hreaches.gone he hcloses
      constructor
      · intro hon
        obtain ⟨pc, ⟨-, hheld⟩, hconn⟩ := has_of_on (hreaches.allows htask) hon
        exact hgone.held i pc hheld hconn
      · intro hcloses'
        obtain ⟨pc, hheld, hconn⟩ := held_of_closes (hreaches.allows htask) hcloses'
        exact hgone.held i pc hheld hconn

/-- Connections are numbered as they are opened. -/
theorem Reaches.openings_eq (h : Reaches o T sessions c) :
    c.openings = List.range c.shared.opened := by
  obtain ⟨shutdown, hrun⟩ := h
  induction hrun with
  | refl => rfl
  | @tail c c' _ hstep ih =>
    cases hstep with
    | env hflips =>
      obtain rfl := hflips
      exact ih
    | @act i op next r s' htask heffect =>
      obtain ⟨hpossible, rfl⟩ := heffect
      have happend : openings ⟨c.shared.after o T op r, Function.update c.task i (next r),
          c.log ++ [(i, ⟨op, r⟩)]⟩ = c.openings ++ (op.opens r).toList := by
        rw [openings, List.filterMap_append]
        rfl
      rw [happend, ih]
      cases op with
      | connect =>
        rcases r with e | conn
        · exact List.append_nil _
        · obtain rfl : conn = c.shared.opened := by simpa [PassState.possible] using hpossible
          exact List.range_succ.symm
      | _ => exact List.append_nil _

theorem Reaches.mem_closings (h : Reaches o T sessions c) (hfinished : c.Finished) :
    conn ∈ c.closings ++ c.shared.drain ↔ conn < c.shared.opened := by
  rw [List.mem_append, PassState.drain, List.mem_reverse]
  constructor
  · rintro (hclosed | hidle)
    · obtain ⟨e, he, hcloses⟩ := List.mem_filterMap.mp hclosed
      exact (h.gone he hcloses).lt
    · obtain ⟨pc, hpc, rfl⟩ := List.mem_map.mp hidle
      exact h.tenure.custody.idle_lt pc hpc
  · intro hlt
    rcases h.tenure.kept conn hlt with ⟨pc, hpc, hconn⟩ | ⟨i, pc, hheld, -⟩ | ⟨i, hclosed⟩
    · exact .inr (List.mem_map.mpr ⟨pc, hpc, hconn⟩)
    · -- a session that has returned holds nothing
      have hnone := (h.tenure.coherent i).held_eq_none (h.stage_of_isDone (hfinished i) ▸ rfl)
      rw [hnone] at hheld
      exact absurd hheld (by simp)
    · rcases (mem_after_closed _ _).mp hclosed with hnone | ⟨e, he, hcloses⟩
      · exact absurd hnone List.not_mem_nil
      · obtain ⟨⟨j, e'⟩, hmem, rfl⟩ := List.mem_map.mp he
        exact .inl (List.mem_filterMap.mpr ⟨_, (List.mem_filter.mp hmem).1, hcloses⟩)

theorem Reaches.nodup_closings (h : Reaches o T sessions c) :
    (c.closings ++ c.shared.drain).Nodup := by
  refine List.nodup_append.mpr ⟨?_, List.nodup_reverse.mpr h.tenure.custody.idle_nodup, ?_⟩
  · refine List.pairwise_filterMap.mpr (h.closed_pairwise.imp ?_)
    rintro e e' hpair conn hcloses conn' hcloses' rfl
    exact (hpair conn hcloses).2 hcloses'
  · intro conn hclosed conn' hidle heq
    obtain ⟨e, he, hcloses⟩ := List.mem_filterMap.mp hclosed
    obtain ⟨pc, hpc, rfl⟩ := List.mem_map.mp (List.mem_reverse.mp hidle)
    exact (h.gone he hcloses).idle pc hpc heq.symm

/-- **Every connection is closed once.** When all sessions of a pass have returned and the shelf has
been drained, the connections closed are those that were opened, each of them once; and at any
moment a connection that has been closed is used no more. A pass without a pool has nothing to
drain. -/
theorem closes_each_once (h : Reaches o T sessions c) :
    (c.Finished → (c.closings ++ c.shared.drain).Perm c.openings) ∧
      (c.log.Pairwise fun e e' ↦ ∀ conn, e.2.1.closes = some conn →
        e'.2.1.on ≠ some conn ∧ e'.2.1.closes ≠ some conn) ∧
      (o.pool = none → c.shared.drain = []) := by
  refine ⟨fun hfinished ↦ ?_, h.closed_pairwise, fun hpool ↦ ?_⟩
  · rw [h.openings_eq]
    refine (List.perm_ext_iff_of_nodup h.nodup_closings List.nodup_range).mpr fun conn ↦ ?_
    rw [h.mem_closings hfinished, List.mem_range]
  · rw [PassState.drain, h.tenure.shelf (hpool ▸ rfl)]
    rfl

/-- Two pooled sessions with room for one connection, behind the last of them. -/
theorem closes_each_once_sample :
    let sessions : Fin 2 → ReplaySession pooledOptions :=
      ![.ofEvents _ 1 [eventIn none (ascii "SELECT 1")],
        .ofEvents _ 2 [eventIn (some (ascii "b")) (ascii "SELECT 2")]]
    ∃ c, Reaches pooledOptions .plain sessions c ∧ c.Finished ∧
      (c.closings ++ c.shared.drain).Perm c.openings := by
  intro sessions
  have hreaches := reaches_run pooledOptions sessions []
  obtain ⟨c, hrun, hfinished⟩ := hreaches.exists_finished
  have hreaches' := hreaches.of_acts hrun
  exact ⟨c, hreaches', hfinished, (closes_each_once hreaches').1 hfinished⟩

end Pass

end SqlReplay
