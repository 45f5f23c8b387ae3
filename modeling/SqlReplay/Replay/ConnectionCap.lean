import Mathlib.Algebra.Order.BigOperators.Group.Finset
import SqlReplay.Replay.Database
import SqlReplay.Replay.Tenancy

/-!
# What a pass does with its connections

The invariant of all interleavings (`Tenure`) weighs the stages of the sessions. Their permits and
those left make up the cap. Their seats and the shelf stay within it: a step raises neither, except
one that finds the shelf empty, and with an empty shelf there are no more seats than permits.

Nothing is lost sight of either. A connection that was opened is on the shelf, or held, or closed
(`Tenure.kept`), so the bound on shelf and seats is one on the connections open at the target.
-/

namespace SqlReplay

open Replay

variable {o : ReplayOptions} {T : TargetDb} {n : ℕ} {s s' : PassState} {k : Fin n → Tenancy}
  {i : Fin n} {op : Op} {r : op.Res} {conn : ConnId}

/-! ## Permits and seats -/

/-- A sum over the sessions when one of them has changed. -/
theorem sum_update (w : Tenancy → ℕ) (k : Fin n → Tenancy) (i : Fin n) (g : Tenancy) :
    ∑ j, w (Function.update k i g j) + w (k i) = ∑ j, w (k j) + w g := by
  have happly : (fun j ↦ w (Function.update k i g j)) =
      Function.update (fun j ↦ w (k j)) i (w g) := by
    funext j
    exact Function.apply_update (fun _ ↦ w) k i g j
  rw [happly, Finset.sum_update_of_mem (Finset.mem_univ i),
    ← Finset.add_sum_erase Finset.univ _ (Finset.mem_univ i), Finset.sdiff_singleton_eq_erase]
  omega

namespace Replay

variable {g : Tenancy}

/-- A session holds a connection at the stages of one. -/
def Tenancy.Coherent (g : Tenancy) : Prop := g.held.isSome = g.stage.holding

theorem Tenancy.Has.coherent {pc : IdleConn} (h : g.Has pc) : g.Coherent := by
  rw [Coherent, h.1, h.2]
  rfl

theorem Tenancy.Coherent.of_held (h : g.Coherent) {pc : IdleConn} (hheld : g.held = some pc) :
    g.stage = .connected ∨ g.stage = .broken := by
  rw [Coherent, hheld] at h
  revert h
  cases g.stage <;> simp [Stage.holding]

theorem Tenancy.Coherent.held_eq_none (h : g.Coherent) (hholding : g.stage.holding = false) :
    g.held = none := by
  rw [Coherent, hholding] at h
  exact Option.not_isSome_iff_eq_none.mp (Bool.eq_false_iff.mp h)

/-- The stage behind an error on a connection. -/
theorem stage_of_error {g : Tenancy} (e : TargetError) (hstage : g.stage = .connected) :
    (if e.fatal then .broken else g.stage : Stage).permit = 1 ∧
      (if e.fatal then .broken else g.stage : Stage).seat = 1 ∧
      (if e.fatal then .broken else g.stage : Stage).holding = true := by
  rw [hstage]
  split_ifs <;> decide

theorem coherent_step (h : g.Coherent) (hallows : (tenancy o T).allows g op) :
    ((tenancy o T).learn g op r).Coherent := by
  cases op with
  | acquire =>
    have hstage : g.stage = .outside := hallows
    have hnone := h.held_eq_none (hstage ▸ rfl)
    cases r with
    | aborted => exact h
    | ready =>
      change g.held.isSome = (g.stage.next o .acquire .ready).holding
      rw [hnone, Stage.next]
      split_ifs <;> rfl
  | release =>
    have hstage : g.stage = .leaving := hallows
    have hnone := h.held_eq_none (hstage ▸ rfl)
    change g.held.isSome = false
    rw [hnone, Option.isSome_none]
  | popIdle => cases r <;> rfl
  | connect =>
    have hstage : g.stage = .connecting := hallows
    cases r with
    | ok conn => rfl
    | error e =>
      change g.held.isSome = false
      rw [h.held_eq_none (hstage ▸ rfl), Option.isSome_none]
  | use conn db | query conn sql | queryChecksum conn sql =>
    obtain ⟨pc, ⟨hstage, hheld⟩, -⟩ := hallows
    cases r with
    | ok result =>
      change (g.held.map _).isSome = g.stage.holding
      rw [hheld, hstage]
      rfl
    | error e =>
      change g.held.isSome = (if e.fatal then .broken else g.stage : Stage).holding
      rw [(stage_of_error e hstage).2.2, hheld, Option.isSome_some]
  | checkin _ | disconnect _ | dropConn _ => rfl
  | _ => exact h

/-- A permit is with the semaphore or with a session. -/
theorem permits_step (h : g.Coherent) (hallows : (tenancy o T).allows g op)
    (hpossible : s.possible op r = true) :
    (s.after o T op r).permits + ((tenancy o T).learn g op r).stage.permit
      = s.permits + g.stage.permit := by
  cases op with
  | acquire =>
    have hstage : g.stage = .outside := hallows
    cases r with
    | aborted => rfl
    | ready =>
      have hpos : 0 < s.permits := by simpa [PassState.possible] using hpossible
      have hnext : (g.stage.next o .acquire .ready).permit = 1 := by
        rw [Stage.next]
        split_ifs <;> rfl
      rw [hstage]
      change s.permits - 1 + (g.stage.next o .acquire .ready).permit = s.permits + 0
      omega
  | release | popIdle | connect =>
    have hstage : g.stage = _ := hallows
    rw [hstage]
    cases r <;> rfl
  | use conn db | query conn sql | queryChecksum conn sql =>
    obtain ⟨pc, ⟨hstage, -⟩, -⟩ := hallows
    cases r with
    | ok result => rfl
    | error e =>
      change s.permits + (if e.fatal then .broken else g.stage : Stage).permit = _
      rw [(stage_of_error e hstage).1, hstage]
      rfl
  | checkin pc =>
    rw [hallows.2.1]
    rfl
  | disconnect conn =>
    obtain ⟨pc, ⟨hstage, -⟩, -⟩ := hallows
    rw [hstage]
    rfl
  | dropConn conn =>
    obtain ⟨pc, hheld, -⟩ := hallows
    rcases h.of_held hheld with hstage | hstage <;> rw [hstage] <;> rfl
  | _ => rfl

/-- A step raises shelf and seats only where the shelf is empty. -/
theorem seats_step (hshelf : o.pool.isSome = false → s.idle = [])
    (hallows : (tenancy o T).allows g op) (hpossible : s.possible op r = true) :
    (s.after o T op r).idle = [] ∨
      (s.after o T op r).idle.length + ((tenancy o T).learn g op r).stage.seat
        ≤ s.idle.length + g.stage.seat := by
  cases op with
  | acquire =>
    have hstage : g.stage = .outside := hallows
    cases r with
    | aborted => exact .inr le_rfl
    | ready =>
      by_cases hpool : o.pool.isSome = true
      · refine .inr ?_
        change s.idle.length + (g.stage.next o .acquire .ready).seat ≤ _
        rw [Stage.next, if_pos hpool, hstage]
        exact le_rfl
      · exact .inl (hshelf (Bool.eq_false_iff.mpr hpool))
  | release =>
    have hstage : g.stage = .leaving := hallows
    rw [hstage]
    exact .inr le_rfl
  | popIdle =>
    have hstage : g.stage = .permitted := hallows
    obtain rfl : r = s.idle.head? := by simpa [PassState.possible] using hpossible
    cases hidle : s.idle with
    | nil => exact .inl (congrArg List.tail hidle)
    | cons pc rest =>
      refine .inr ?_
      change s.idle.tail.length + 1 ≤ _
      rw [hidle, List.tail_cons, List.length_cons]
      exact Nat.le_add_right _ _
  | connect =>
    have hstage : g.stage = .connecting := hallows
    rw [hstage]
    cases r with
    | ok conn => exact .inr le_rfl
    | error e => exact .inr (Nat.le_succ _)
  | use conn db | query conn sql | queryChecksum conn sql =>
    obtain ⟨pc, ⟨hstage, -⟩, -⟩ := hallows
    cases r with
    | ok result => exact .inr le_rfl
    | error e =>
      refine .inr ?_
      change s.idle.length + (if e.fatal then .broken else g.stage : Stage).seat ≤ _
      rw [(stage_of_error e hstage).2.1, hstage]
      exact le_rfl
  | checkin pc =>
    rw [hallows.2.1]
    exact .inr le_rfl
  | disconnect conn | dropConn conn => exact .inr (Nat.add_le_add_left (Nat.zero_le _) _)
  | _ => exact .inr le_rfl

/-- The shelf is used by pooled sessions only. -/
theorem shelf_step (hshelf : o.pool.isSome = false → s.idle = [])
    (hallows : (tenancy o T).allows g op) (hpool : o.pool.isSome = false) :
    (s.after o T op r).idle = [] := by
  cases op with
  | popIdle => exact (congrArg List.tail (hshelf hpool)).trans List.tail_nil
  | checkin pc => exact absurd hallows.1 (Bool.eq_false_iff.mp hpool)
  | _ => exact hshelf hpool

/-- What the protocol allows suits the connection held. -/
theorem suits_of_allows (h : g.Coherent) (hallows : (tenancy o T).allows g op) :
    Suits g.held op := by
  cases op with
  | popIdle | connect =>
    have hstage : g.stage = _ := hallows
    exact h.held_eq_none (hstage ▸ rfl)
  | use conn db | query conn sql | queryChecksum conn sql =>
    obtain ⟨pc, ⟨-, hheld⟩, hconn⟩ := hallows
    exact ⟨pc, hheld, hconn⟩
  | checkin pc => exact hallows.2.2
  | _ => exact trivial

end Replay

/-! ## Dead connections -/

/-- A connection that is dead: it is not on the shelf, and a session that holds it knows. -/
structure Dead (s : PassState) (k : Fin n → Tenancy) (conn : ConnId) : Prop where
  lt : conn < s.opened
  idle : ∀ pc ∈ s.idle, pc.conn ≠ conn
  held : ∀ j pc, (k j).held = some pc → pc.conn = conn → (k j).stage = .broken

namespace Dead

/-- Only the shelf and the number of connections matter. -/
theorem congr (h : Dead s k conn) (hidle : s'.idle = s.idle) (hopened : s'.opened = s.opened) :
    Dead s' k conn :=
  ⟨hopened ▸ h.lt, hidle ▸ h.idle, h.held⟩

/-- What a session has of a dead connection behind an operation of its own. -/
theorem held_step (h : Dead s k conn) (hcoherent : (k i).Coherent)
    (hallows : (tenancy o T).allows (k i) op) (hpossible : s.possible op r = true)
    {pc : IdleConn} (hheld : holds o T (k i).held op r = some pc) (hconn : pc.conn = conn) :
    (k i).stage.next o op r = .broken := by
  -- a connection in use is not dead
  have hnot (pc' : IdleConn) (hhas : (k i).Has pc') (hconn' : pc'.conn = conn) : False := by
    have hbroken := h.held i pc' hhas.2 hconn'
    rw [hhas.1] at hbroken
    exact absurd hbroken (by decide)
  have hmoved (pc' : IdleConn) (hhas : (k i).Has pc') (sql : Bytes)
      (hheld' : (k i).held.map (·.moved T sql) = some pc) : False := by
    rw [hhas.2, Option.map_some, Option.some.injEq] at hheld'
    exact hnot pc' hhas (by rw [← IdleConn.moved_conn T pc' sql, hheld', hconn])
  cases op with
  | acquire =>
    have hstage : (k i).stage = .outside := hallows
    rw [show (k i).held = none from hcoherent.held_eq_none (hstage ▸ rfl)] at hheld
    cases r <;> cases hheld
  | release =>
    have hstage : (k i).stage = .leaving := hallows
    rw [show (k i).held = none from hcoherent.held_eq_none (hstage ▸ rfl)] at hheld
    cases hheld
  | connect =>
    have hstage : (k i).stage = .connecting := hallows
    cases r with
    | ok conn' =>
      obtain rfl : conn' = s.opened := by simpa [PassState.possible] using hpossible
      obtain rfl := Option.some.inj hheld
      exact absurd hconn h.lt.ne'
    | error e =>
      rw [show (k i).held = none from hcoherent.held_eq_none (hstage ▸ rfl)] at hheld
      cases hheld
  | popIdle =>
    obtain rfl : r = s.idle.head? := by simpa [PassState.possible] using hpossible
    exact absurd hconn (h.idle pc (List.mem_of_mem_head? hheld))
  | use conn' db | query conn' sql | queryChecksum conn' sql =>
    obtain ⟨pc', hhas, rfl⟩ := hallows
    cases r with
    | ok result => exact (hmoved pc' hhas _ hheld).elim
    | error e =>
      have hsame : pc' = pc := Option.some.inj (hhas.2.symm.trans hheld)
      exact (hnot pc' hhas (hsame ▸ hconn)).elim
  | checkin _ | disconnect _ | dropConn _ => cases hheld
  | _ => exact h.held i pc hheld hconn

/-- A dead connection stays dead. -/
theorem step (h : Dead s k conn) (hcoherent : (k i).Coherent)
    (hallows : (tenancy o T).allows (k i) op) (hpossible : s.possible op r = true) :
    Dead (s.after o T op r) (Function.update k i ((tenancy o T).learn (k i) op r)) conn := by
  refine ⟨h.lt.trans_le ?_, fun pc hpc ↦ ?_, fun j pc hheld hconn ↦ ?_⟩
  · cases op with
    | connect =>
      cases r with
      | ok conn' => exact Nat.le_succ _
      | error e => exact le_rfl
    | _ => exact le_rfl
  · cases op with
    | popIdle => exact h.idle pc (List.mem_of_mem_tail hpc)
    | checkin pc' =>
      rcases List.mem_cons.mp hpc with rfl | hpc
      · intro hconn
        have hbroken := h.held i pc hallows.2.2 hconn
        rw [hallows.2.1] at hbroken
        exact nomatch hbroken
      · exact h.idle pc hpc
    | _ => exact h.idle pc hpc
  · by_cases hj : j = i
    · subst hj
      rw [Function.update_self] at hheld ⊢
      exact h.held_step hcoherent hallows hpossible hheld hconn
    · rw [Function.update_of_ne hj] at hheld ⊢
      exact h.held j pc hheld hconn

/-- A fatal error makes the connection dead. -/
theorem of_lost (h : Custody s fun j ↦ (k j).held) (hallows : (tenancy o T).allows (k i) op)
    (hlost : op.lost r = some conn) :
    Dead (s.after o T op r) (Function.update k i ((tenancy o T).learn (k i) op r)) conn := by
  cases op with
  | use conn' db | query conn' sql | queryChecksum conn' sql =>
    obtain ⟨pc, ⟨hstage, hheld⟩, rfl⟩ := hallows
    cases r with
    | ok result => exact nomatch hlost
    | error e =>
      rw [Op.lost] at hlost
      split_ifs at hlost with hfatal
      obtain rfl := Option.some.inj hlost
      refine ⟨h.held_lt i pc hheld, h.held_ne_idle i pc hheld, fun j pc' hheld' hconn ↦ ?_⟩
      by_cases hj : j = i
      · subst hj
        rw [Function.update_self]
        exact if_pos hfatal
      · rw [Function.update_of_ne hj] at hheld'
        exact absurd (h.held_inj j i pc' pc hheld' hheld hconn) hj
  | _ => exact nomatch hlost

end Dead

/-! ## Connections kept track of -/

/-- A connection is on the shelf, with a session, or closed. -/
inductive Kept (s : PassState) (k : Fin n → Tenancy) (conn : ConnId) : Prop
  | idle (pc : IdleConn) : pc ∈ s.idle → pc.conn = conn → Kept s k conn
  | held (i : Fin n) (pc : IdleConn) : (k i).held = some pc → pc.conn = conn → Kept s k conn
  | closed (i : Fin n) : conn ∈ (k i).closed → Kept s k conn

namespace Kept

/-- Only the shelf matters. -/
theorem congr (h : Kept s k conn) (hidle : s'.idle = s.idle) : Kept s' k conn := by
  rcases h with ⟨pc, hpc, hconn⟩ | ⟨i, pc, hheld, hconn⟩ | ⟨i, hclosed⟩
  · exact .idle pc (hidle ▸ hpc) hconn
  · exact .held i pc hheld hconn
  · exact .closed i hclosed

theorem held_self {g : Tenancy} {pc : IdleConn} (hheld : g.held = some pc)
    (hconn : pc.conn = conn) : Kept s' (Function.update k i g) conn :=
  .held i pc (by rwa [Function.update_self]) hconn

theorem closed_self {g : Tenancy} (hclosed : conn ∈ g.closed) :
    Kept s' (Function.update k i g) conn :=
  .closed i (by rwa [Function.update_self])

/-- What a session has held it still holds, or it has put it on the shelf or closed it. -/
theorem held_step {pc : IdleConn} (hheld : (k i).held = some pc)
    (hallows : (tenancy o T).allows (k i) op) (hsuits : Suits (k i).held op) :
    Kept (s.after o T op r) (Function.update k i ((tenancy o T).learn (k i) op r)) pc.conn := by
  have hmoved (sql : Bytes) : (k i).held.map (·.moved T sql) = some (pc.moved T sql) := by
    rw [hheld, Option.map_some]
  cases op with
  | connect | popIdle => exact nomatch hheld.symm.trans hsuits
  | use conn' db | query conn' sql | queryChecksum conn' sql =>
    cases r with
    | ok result => exact held_self (hmoved _) (IdleConn.moved_conn T pc _)
    | error e => exact held_self hheld rfl
  | checkin pc' =>
    obtain rfl : pc' = pc := Option.some.inj (hsuits.symm.trans hheld)
    exact .idle pc' List.mem_cons_self rfl
  | disconnect conn' =>
    obtain ⟨pc', ⟨-, hheld'⟩, rfl⟩ := hallows
    obtain rfl : pc' = pc := Option.some.inj (hheld'.symm.trans hheld)
    exact closed_self List.mem_cons_self
  | dropConn conn' =>
    obtain ⟨pc', hheld', rfl⟩ := hallows
    obtain rfl : pc' = pc := Option.some.inj (hheld'.symm.trans hheld)
    exact closed_self List.mem_cons_self
  | _ => exact held_self hheld rfl

/-- Nothing that was opened is lost sight of. -/
theorem step (h : ∀ conn < s.opened, Kept s k conn) (hsuits : Suits (k i).held op)
    (hallows : (tenancy o T).allows (k i) op) (hpossible : s.possible op r = true)
    (hlt : conn < (s.after o T op r).opened) :
    Kept (s.after o T op r) (Function.update k i ((tenancy o T).learn (k i) op r)) conn := by
  have hold (hlt : conn < s.opened) :
      Kept (s.after o T op r) (Function.update k i ((tenancy o T).learn (k i) op r)) conn := by
    rcases h conn hlt with ⟨pc, hpc, rfl⟩ | ⟨j, pc, hheld, rfl⟩ | ⟨j, hclosed⟩
    · cases op with
      | popIdle =>
        obtain rfl : r = s.idle.head? := by simpa [PassState.possible] using hpossible
        cases hidle : s.idle with
        | nil => exact absurd hpc (hidle ▸ List.not_mem_nil)
        | cons pc' rest =>
          rcases List.mem_cons.mp (hidle ▸ hpc) with rfl | hpc
          · exact held_self rfl rfl
          · refine .idle pc ?_ rfl
            change pc ∈ s.idle.tail
            rwa [hidle]
      | checkin pc' => exact .idle pc (List.mem_cons_of_mem _ hpc) rfl
      | _ => exact .idle pc hpc rfl
    · by_cases hj : j = i
      · subst hj
        exact held_step hheld hallows hsuits
      · exact .held j pc (by rwa [Function.update_of_ne hj]) rfl
    · by_cases hj : j = i
      · subst hj
        exact closed_self (List.mem_append_right _ hclosed)
      · exact .closed j (by rwa [Function.update_of_ne hj])
  cases op with
  | connect =>
    cases r with
    | error e => exact hold hlt
    | ok conn' =>
      obtain rfl : conn' = s.opened := by simpa [PassState.possible] using hpossible
      rcases Nat.lt_succ_iff_lt_or_eq.mp hlt with hlt | rfl
      · exact hold hlt
      · exact held_self rfl rfl
  | _ => exact hold hlt

end Kept

/-! ## The invariant -/

/-- The invariant of all interleavings. -/
structure Tenure (o : ReplayOptions) (s : PassState) (k : Fin n → Tenancy) : Prop where
  custody : Custody s fun i ↦ (k i).held
  coherent : ∀ i, (k i).Coherent
  permits_eq : s.permits + ∑ i, (k i).stage.permit = o.connectionCap
  seats_le : s.idle.length + ∑ i, (k i).stage.seat ≤ o.connectionCap
  shelf : o.pool.isSome = false → s.idle = []
  dead : ∀ i, ∀ conn ∈ (k i).lost, Dead s k conn
  kept : ∀ conn < s.opened, Kept s k conn

namespace Tenure

theorem new (o : ReplayOptions) (shutdown : Bool) :
    Tenure o (.new o shutdown) fun _ : Fin n ↦ .new := by
  refine ⟨.new o shutdown, fun _ ↦ rfl, ?_, ?_, fun _ ↦ rfl, ?_, ?_⟩
  · simp [PassState.new, Tenancy.new, Stage.permit]
  · simp [PassState.new, Tenancy.new, Stage.seat]
  · exact fun i conn hconn ↦ absurd hconn List.not_mem_nil
  · exact fun conn hlt ↦ absurd hlt (Nat.not_lt_zero conn)

theorem step (h : Tenure o s k) (hallows : (tenancy o T).allows (k i) op)
    (hresponds : s.Responds o T op r s') :
    Tenure o s' (Function.update k i ((tenancy o T).learn (k i) op r)) := by
  have hsuits := suits_of_allows (h.coherent i) hallows
  have hcustody := h.custody.step_of_suits (i := i) hsuits hresponds
  obtain ⟨hpossible, rfl⟩ := hresponds
  have hpermits := permits_step (h.coherent i) hallows hpossible
  have hpermitSum := sum_update (fun g ↦ g.stage.permit) k i ((tenancy o T).learn (k i) op r)
  have hpermits_eq := h.permits_eq
  refine ⟨?_, fun j ↦ ?_, by omega, ?_, shelf_step h.shelf hallows, fun j conn hconn ↦ ?_,
    fun conn hlt ↦ Kept.step h.kept hsuits hallows hpossible hlt⟩
  · have happly : (fun j ↦ (Function.update k i ((tenancy o T).learn (k i) op r) j).held) =
        Function.update (fun j ↦ (k j).held) i (holds o T (k i).held op r) := by
      funext j
      exact Function.apply_update (fun _ ↦ Tenancy.held) k i _ j
    rw [happly]
    exact hcustody
  · by_cases hj : j = i
    · subst hj
      rw [Function.update_self]
      exact coherent_step (h.coherent j) hallows
    · rw [Function.update_of_ne hj]
      exact h.coherent j
  · rcases seats_step h.shelf hallows hpossible with hempty | hle
    · -- with an empty shelf there are no more seats than permits
      rw [hempty]
      have hseats : ∑ j, (Function.update k i ((tenancy o T).learn (k i) op r) j).stage.seat ≤
          ∑ j, (Function.update k i ((tenancy o T).learn (k i) op r) j).stage.permit :=
        Finset.sum_le_sum fun j _ ↦ Stage.seat_le_permit _
      rw [List.length_nil]
      omega
    · have hseatSum := sum_update (fun g ↦ g.stage.seat) k i ((tenancy o T).learn (k i) op r)
      have hseats_le := h.seats_le
      omega
  · by_cases hj : j = i
    · subst hj
      rw [Function.update_self] at hconn
      rcases List.mem_append.mp hconn with hconn | hconn
      · exact .of_lost h.custody hallows (Option.mem_toList.mp hconn)
      · exact (h.dead j conn hconn).step (h.coherent j) hallows hpossible
    · rw [Function.update_of_ne hj] at hconn
      exact (h.dead j conn hconn).step (h.coherent i) hallows hpossible

/-- The flag flips. -/
theorem flips (h : Tenure o s k) (hflips : s.Flips s') : Tenure o s' k := by
  obtain rfl := hflips
  exact ⟨h.custody.congr rfl le_rfl fun _ _ ↦ rfl, h.coherent, h.permits_eq, h.seats_le, h.shelf,
    fun i conn hconn ↦ (h.dead i conn hconn).congr rfl rfl,
    fun conn hlt ↦ (h.kept conn hlt).congr rfl⟩

end Tenure

/-! ## What is known from the log -/

namespace Replay

variable {g : Tenancy} {t : Trace Op.Res}

/-- The connection a trace leaves a session with. -/
def heldAfter (o : ReplayOptions) (T : TargetDb) (t : Trace Op.Res) : Option IdleConn :=
  t.foldl (fun held e ↦ holds o T held e.1 e.2) none

theorem after_held (g : Tenancy) (t : Trace Op.Res) :
    ((tenancy o T).after g t).held = t.foldl (fun held e ↦ holds o T held e.1 e.2) g.held := by
  unfold Protocol.after
  induction t generalizing g with
  | nil => rfl
  | cons e t ih => rw [List.foldl_cons, List.foldl_cons, ih]; rfl

theorem mem_after_lost (g : Tenancy) (t : Trace Op.Res) :
    conn ∈ ((tenancy o T).after g t).lost ↔ conn ∈ g.lost ∨ ∃ e ∈ t, e.1.lost e.2 = some conn := by
  unfold Protocol.after
  induction t generalizing g with
  | nil => simp
  | cons e t ih =>
    rw [List.foldl_cons, ih, List.exists_mem_cons_iff, ← or_assoc]
    refine or_congr_left ?_
    change conn ∈ (e.1.lost e.2).toList ++ g.lost ↔ _
    rw [List.mem_append, Option.mem_toList, or_comm]

theorem mem_after_closed (g : Tenancy) (t : Trace Op.Res) :
    conn ∈ ((tenancy o T).after g t).closed ↔
      conn ∈ g.closed ∨ ∃ e ∈ t, e.1.closes = some conn := by
  unfold Protocol.after
  induction t generalizing g with
  | nil => simp
  | cons e t ih =>
    rw [List.foldl_cons, ih, List.exists_mem_cons_iff, ← or_assoc]
    refine or_congr_left ?_
    change conn ∈ e.1.closes.toList ++ g.closed ↔ _
    rw [List.mem_append, Option.mem_toList, or_comm]

end Replay

/-! ## Passes -/

namespace Pass

/-- The connection a session holds. -/
def heldBy (o : ReplayOptions) (T : TargetDb) (c : Pass n) (i : Fin n) : Option IdleConn :=
  heldAfter o T (c.logOf i)

/-- A connection has been closed. -/
def closed (c : Pass n) (conn : ConnId) : Bool :=
  c.log.any fun e ↦ e.2.1.closes == some conn

/-- The connections that are open at the target. -/
def openConns (c : Pass n) : Finset ConnId :=
  (Finset.range c.shared.opened).filter fun conn ↦ !c.closed conn

/-- A session is about to connect, or at it. -/
def atConnect (c : Pass n) (i : Fin n) : Bool :=
  match c.task i with
  | .call .connect _ => true
  | _ => false

/-- The connections in the making. -/
def connecting (c : Pass n) : Finset (Fin n) := Finset.univ.filter fun i ↦ c.atConnect i

/-- What a pass does with its connections. -/
structure SoundConnections (o : ReplayOptions) (T : TargetDb) (c : Pass n) : Prop where
  /-- No more connections are open than the cap, those in the making included. -/
  cap : c.openConns.card + c.connecting.card ≤ o.connectionCap
  /-- A session uses the connection it holds and no other. -/
  uses_held : ∀ i op next conn, c.task i = .call op next → op.on = some conn →
    ∃ pc, c.heldBy o T i = some pc ∧ pc.conn = conn
  /-- No two sessions hold one connection. -/
  exclusive : ∀ i j pc pc', c.heldBy o T i = some pc → c.heldBy o T j = some pc' →
    pc.conn = pc'.conn → i = j
  /-- What a session holds is not on the shelf. -/
  apart : ∀ i pc, c.heldBy o T i = some pc → ∀ pc' ∈ c.shared.idle, pc'.conn ≠ pc.conn
  /-- A connection is not used behind a fatal error. -/
  lost : c.log.Pairwise fun e e' ↦ ∀ conn, e.2.1.lost e.2.2 = some conn → e'.2.1.on ≠ some conn
  /-- A connection on the shelf is in the database that the shelf has for it. -/
  idle_db : ∀ pc ∈ c.shared.idle, c.shared.database pc.conn = pc.db

variable {sessions : Fin n → ReplaySession o} {c : Pass n}

/-- What the sessions have come to. -/
def tenancies (o : ReplayOptions) (T : TargetDb) (c : Pass n) : Fin n → Tenancy :=
  c.known (fun _ ↦ tenancy o T) .new

theorem tenancies_held (i : Fin n) : (tenancies o T c i).held = c.heldBy o T i := after_held _ _

theorem Reaches.tenure (h : Reaches o T sessions c) : Tenure o c.shared (tenancies o T c) := by
  obtain ⟨shutdown, hrun⟩ := h
  exact hrun.invariant (Tenure o)
    (fun i ↦ runSession_tenancy (T := T) (sessions i).info (sessions i).events) (.new o shutdown)
    (fun s k i op r s' hinv hallows hresponds ↦ hinv.step hallows hresponds)
    fun s k s' hinv hflips ↦ hinv.flips hflips

theorem Reaches.allows (h : Reaches o T sessions c) {next : op.Res → Program Op.Res Unit}
    (htask : c.task i = .call op next) : (tenancy o T).allows (tenancies o T c i) op := by
  obtain ⟨shutdown, hrun⟩ := h
  have hobeys := hrun.obeys
    (fun j ↦ runSession_tenancy (T := T) (sessions j).info (sessions j).events) i
  rw [htask] at hobeys
  exact hobeys.1

/-- An operation that uses a connection uses one that is held and alive. -/
theorem has_of_on (h : (tenancy o T).allows (tenancies o T c i) op) (hon : op.on = some conn) :
    ∃ pc, (tenancies o T c i).Has pc ∧ pc.conn = conn := by
  cases op with
  | use conn' db | query conn' sql | queryChecksum conn' sql | disconnect conn' =>
    obtain rfl := Option.some.inj hon
    exact h
  | checkin pc =>
    obtain rfl := Option.some.inj hon
    exact ⟨pc, h.2, rfl⟩
  | _ => exact nomatch hon

theorem stage_of_atConnect (h : Reaches o T sessions c) (hconnect : c.atConnect i = true) :
    (tenancies o T c i).stage = .connecting := by
  unfold atConnect at hconnect
  split at hconnect
  · next htask => exact h.allows htask
  · exact nomatch hconnect

/-- The sessions that hold a connection or make one have the seats. -/
theorem seats_ge (h : Reaches o T sessions c) :
    (Finset.univ.filter fun i ↦ (tenancies o T c i).stage.holding).card + c.connecting.card
      ≤ ∑ i, (tenancies o T c i).stage.seat := by
  rw [Finset.card_filter, connecting, Finset.card_filter, ← Finset.sum_add_distrib]
  refine Finset.sum_le_sum fun i _ ↦ ?_
  by_cases hconnect : c.atConnect i = true
  · rw [if_pos hconnect, stage_of_atConnect h hconnect]
    decide
  · rw [if_neg hconnect]
    cases (tenancies o T c i).stage <;> decide

/-- What is open is on the shelf or with a session. -/
theorem openConns_card_le (h : Reaches o T sessions c) :
    c.openConns.card ≤ c.shared.idle.length +
      (Finset.univ.filter fun i ↦ (tenancies o T c i).stage.holding).card := by
  have hsubset : c.openConns ⊆ (c.shared.idle.map IdleConn.conn).toFinset ∪
      (Finset.univ.filter fun i ↦ (tenancies o T c i).stage.holding).image fun i ↦
        ((tenancies o T c i).held.map IdleConn.conn).getD 0 := by
    intro conn hconn
    obtain ⟨hlt, hopen⟩ := Finset.mem_filter.mp hconn
    rw [Finset.mem_union, List.mem_toFinset, List.mem_map, Finset.mem_image]
    rcases h.tenure.kept conn (Finset.mem_range.mp hlt) with
      ⟨pc, hpc, hconn⟩ | ⟨i, pc, hheld, hconn⟩ | ⟨i, hclosed⟩
    · exact .inl ⟨pc, hpc, hconn⟩
    · refine .inr ⟨i, Finset.mem_filter.mpr ⟨Finset.mem_univ i, ?_⟩, ?_⟩
      · rw [← h.tenure.coherent i, hheld, Option.isSome_some]
      · rw [hheld]
        exact hconn
    · -- a session that has closed it says so in the log
      rcases (mem_after_closed _ _).mp hclosed with hnone | ⟨e, he, hcloses⟩
      · exact absurd hnone List.not_mem_nil
      · obtain ⟨⟨j, e'⟩, hmem, rfl⟩ := List.mem_map.mp he
        have hin := (List.mem_filter.mp hmem).1
        have hclosed' : c.closed conn = true :=
          List.any_eq_true.mpr ⟨_, hin, beq_iff_eq.mpr hcloses⟩
        rw [hclosed'] at hopen
        exact nomatch hopen
  refine (Finset.card_le_card hsubset).trans ((Finset.card_union_le _ _).trans ?_)
  refine Nat.add_le_add ((List.toFinset_card_le _).trans ?_) Finset.card_image_le
  rw [List.length_map]

/-- A connection that a session has lost is dead. -/
theorem dead_of_lost (h : Reaches o T sessions c) {e : Fin n × ((op : Op) × op.Res)}
    (he : e ∈ c.log) (hlost : e.2.1.lost e.2.2 = some conn) :
    Dead c.shared (tenancies o T c) conn := by
  refine h.tenure.dead e.1 conn ((mem_after_lost _ _).mpr (.inr ⟨e.2, ?_, hlost⟩))
  exact List.mem_map.mpr ⟨e, List.mem_filter.mpr ⟨he, decide_eq_true rfl⟩, rfl⟩

theorem lost_pairwise (h : Reaches o T sessions c) : c.log.Pairwise fun e e' ↦
    ∀ conn, e.2.1.lost e.2.2 = some conn → e'.2.1.on ≠ some conn := by
  obtain ⟨shutdown, hrun⟩ := h
  induction hrun with
  | refl => exact List.Pairwise.nil
  | @tail c c' hrun hstep ih =>
    have hreaches : Reaches o T sessions c := ⟨shutdown, hrun⟩
    cases hstep with
    | env _ => exact ih
    | @act i op next r s' htask heffect =>
      refine List.pairwise_append.mpr ⟨ih, List.pairwise_singleton _ _, fun e he e' he' ↦ ?_⟩
      obtain rfl := List.mem_singleton.mp he'
      intro conn hlost hon
      obtain ⟨pc, ⟨hstage, hheld⟩, hconn⟩ := has_of_on (hreaches.allows htask) hon
      have hbroken := (dead_of_lost hreaches he hlost).held i pc hheld hconn
      rw [hstage] at hbroken
      exact nomatch hbroken

/-- In either mode, whatever the target does and in whatever order the sessions go on, a pass keeps
to its cap and no connection is shared, used behind a fatal error, or on the shelf under a database
that it is not in. What the target is trusted in matters to the last only. -/
theorem Reaches.soundConnections (h : Reaches o T sessions c) : SoundConnections o T c := by
  have htenure := h.tenure
  have hcustody : Custody c.shared fun i ↦ c.heldBy o T i := by
    have heq : (fun i ↦ (tenancies o T c i).held) = fun i ↦ c.heldBy o T i := by
      funext i
      exact tenancies_held i
    rw [← heq]
    exact htenure.custody
  refine ⟨?_, ?_, hcustody.held_inj, hcustody.held_ne_idle, lost_pairwise h, hcustody.idle_db⟩
  · have hseats := htenure.seats_le
    have hge := seats_ge h
    have hle := openConns_card_le h
    omega
  · intro i op next conn htask hon
    obtain ⟨pc, ⟨-, hheld⟩, hconn⟩ := has_of_on (h.allows htask) hon
    exact ⟨pc, (tenancies_held i).symm.trans hheld, hconn⟩

/-- Two pooled sessions with room for one connection, which the second finds on the shelf. -/
theorem soundConnections_sample :
    let sessions : Fin 2 → ReplaySession pooledOptions :=
      ![.ofEvents _ 1 [eventIn none (ascii "SELECT 1")],
        .ofEvents _ 2 [eventIn (some (ascii "b")) (ascii "SELECT 2")]]
    ∃ c, Reaches pooledOptions .plain sessions c ∧ SoundConnections pooledOptions .plain c ∧
      c.shared.idle = [⟨0, some (ascii "b")⟩] := by
  intro sessions
  have hreaches := reaches_run pooledOptions sessions (List.replicate 12 0 ++ List.replicate 12 1)
  exact ⟨_, hreaches, hreaches.soundConnections, by decide +kernel⟩

end Pass

end SqlReplay
