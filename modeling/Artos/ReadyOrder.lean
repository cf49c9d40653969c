/-
# Ready lists are first-in first-out

A task enters a ready list at its end, by whatever route, and leaves it from its head
when it is dispatched, or from anywhere when its priority changes.  So every ready list
is in order of arrival in every reachable state (`Reachable.readyFifo`).
-/
import Artos.Preserve

open Function

namespace Artos

open Sched

variable {cfg : Config} {k k' : Sched} {a : Action} {acts : List Action} {s : Sys}

/-! ## Stamps -/

/-- **A task that is not linked where it was has been linked anew**, with a stamp from the
present clock on, or is in no list. -/
theorem Moves.state_stamp (h : SInv cfg k) (hd : DelayInv k) (hm : Moves cfg k acts k')
    (t : Tid) : k'.stateL.container t = none ∨
      k'.stateL.container t = k.stateL.container t ∧ k'.stateL.stamp t = k.stateL.stamp t ∨
      k.stateL.clock ≤ k'.stateL.stamp t := by
  induction hm with
  | nil => exact Or.inr (Or.inl ⟨rfl, rfl⟩)
  | @snoc tr k₁ k₂ b hm hmove ih =>
      have hle := (Moves.clock_le hm).1
      rcases hmove.state_item (h.moves hd hm).1 t with hnone | ⟨hc, -, hst⟩ | ⟨hst, -⟩
      · exact Or.inl hnone
      · rcases ih with hnone | ⟨hc₁, hst₁⟩ | hnew
        · exact Or.inl (hc.trans hnone)
        · exact Or.inr (Or.inl ⟨hc.trans hc₁, hst.trans hst₁⟩)
        · exact Or.inr (Or.inr (hst ▸ hnew))
      · exact Or.inr (Or.inr (by omega))

/-! ## Arrival -/

/-- **Every ready list is in order of arrival.** -/
def ReadyFifo (k : Sched) : Prop := ∀ p, ListStore.Fifo k.stateL (.ready p)

/-- **Every move keeps the ready lists in order of arrival.** -/
theorem ReadyFifo.move (h : ReadyFifo k) (hs : SInv cfg k) (hm : Move cfg k a k') :
    ReadyFifo k' := by
  intro p
  cases hm with
  | create hentry hprio hwords hlt => exact ((h p).setValue _ 0).insertEnd _ _
  | requeue hcur =>
      unfold requeued
      split
      · exact (h p).insertEnd _ _
      · exact h p
  | dispatch hall htop => exact (h p).remove _
  | @block t w obj inf hc hw =>
      show ListStore.Fifo (k.parked t w inf) _
      have hne : StateList.ready p ≠ k.parkList w inf := by
        intro he
        have hb := parkList_isBlocked w inf hs
        rw [← he] at hb
        simp [StateList.isBlocked] at hb
      unfold parked
      split
      · exact ((h p).setValue _ w).insertEnd _ _
      · exact ((h p).setValue _ w).insertSorted_of_ne hne
  | wake hl => exact ((h p).remove _).insertEnd _ _
  | expire hl hdue => exact ((h p).remove _).insertEnd _ _
  | advance hset =>
      rw [advanced_stateL]
      exact h p
  | @setEff t q hbase hp hne =>
      unfold withEff
      split
      · exact ((h p).remove _).insertEnd _ _
      · exact h p
  | _ => exact h p

theorem ReadyFifo.moves (h : ReadyFifo k) (hs : SInv cfg k) (hd : DelayInv k)
    (hm : Moves cfg k acts k') : ReadyFifo k' := by
  induction hm with
  | nil => exact h
  | snoc hm hmove ih => exact ih.move (hs.moves hd hm).1 hmove

/-- **In every reachable state every ready list is in order of arrival.** -/
theorem Reachable.readyFifo (h : Reachable cfg s) : ReadyFifo s.sched := by
  obtain ⟨s₀, tr, h₀, hr⟩ := h
  have hall : Inv cfg s ∧ ReadyFifo s.sched := by
    refine hr.invariant (I := fun s => Inv cfg s ∧ ReadyFifo s.sched)
      (fun s b s' hI hs => ?_) ⟨h₀.inv, fun p => ?_⟩
    · obtain ⟨acts, hm⟩ := (step_kind hI.1 hs).moves
      exact ⟨hI.1.step hs, hI.2.moves hI.1.ready.inv hI.1.ready.delay hm⟩
    · rw [h₀.sched]
      exact ListStore.fifo_empty.setValue .idle 0
  exact hall.2

end Artos
