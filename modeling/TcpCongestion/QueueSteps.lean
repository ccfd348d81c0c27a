import TcpCongestion.EventStore
import TcpCongestion.Runs

/-! The steps of a call at the heap, let run one after the other, do what `min_heap_push`
and `min_heap_pop` do. -/
namespace TcpCongestion.QueueSteps

open HeapOrder Runs Words EventQueue

section Rounds

variable {α : Type} [DecidableEq α] {elem : Element α} {s : MinHeap32 α}

private theorem shiftUp_round (returns : s.shiftUp elem hole e = some cells) :
    Sift.round elem s ⟨.up, hole, e⟩ = some (cells, none) ∨
      ∃ moved, hole ≠ 0 ∧
        Sift.round elem s ⟨.up, hole, e⟩ = some (moved, some ⟨.up, (hole - 1) / 2, e⟩) ∧
        moved.shiftUp elem ((hole - 1) / 2) e = some cells := by
  rw [Cells32.shiftUp] at returns
  simp only [Sift.round]
  split at returns
  · rename_i root
    rw [if_pos root, returns]
    exact .inl rfl
  · rename_i below
    simp only [Option.bind_eq_bind, Option.bind_eq_some_iff] at returns
    obtain ⟨above, reads, greater, compares, returns⟩ := returns
    simp only [if_neg below, reads, compares, Option.bind_eq_bind, Option.bind_some]
    split at returns
    · rename_i up
      obtain ⟨moved, places, onward⟩ := Option.bind_eq_some_iff.mp returns
      rw [if_pos up, places]
      exact .inr ⟨moved, below, rfl, onward⟩
    · rename_i stays
      rw [if_neg stays, returns]
      exact .inl rfl

private theorem shiftDown_round (returns : s.shiftDown elem s.n hole e = some cells) :
    Sift.round elem s ⟨.down, hole, e⟩ = some (cells, none) ∨
      ∃ moved child, hole < child ∧
        Sift.round elem s ⟨.down, hole, e⟩ = some (moved, some ⟨.down, child, e⟩) ∧
        moved.shiftDown elem s.n child e = some cells := by
  rw [Cells32.shiftDown] at returns
  simp only [Sift.round]
  split at returns
  · rename_i children
    simp only [Option.bind_eq_bind, Option.bind_eq_some_iff] at returns
    obtain ⟨child, picks, below, reads, greater, compares, returns⟩ := returns
    simp only [if_pos children, picks, reads, compares, Option.bind_eq_bind, Option.bind_some]
    split at returns
    · rename_i down
      obtain ⟨moved, places, onward⟩ := Option.bind_eq_some_iff.mp returns
      split at onward
      · rename_i deeper
        rw [if_pos down, places, Option.bind_some, if_pos deeper]
        exact .inr ⟨moved, child, deeper, rfl, onward⟩
      · cases onward
    · rename_i stays
      rw [if_neg stays, returns]
      exact .inl rfl
  · rename_i leaf
    rw [if_neg leaf, returns]
    exact .inl rfl

end Rounds

/-- The call at the heap, let run, comes from `s` to `last`. -/
def Reaches (allocates : Bool) (s last : EventQueue τ) : Prop :=
  ∃ rounds, run step s (List.replicate rounds (.next allocates)) = some last

variable {s : EventQueue τ}

private theorem Reaches.refl (allocates : Bool) (s : EventQueue τ) :
    Reaches allocates s s := ⟨0, rfl⟩

private theorem Reaches.head (here : s.atHeap = some stage)
    (took : s.advance allocates stage = some next)
    (onward : Reaches allocates next last) : Reaches allocates s last := by
  obtain ⟨rounds, ran⟩ := onward
  refine ⟨rounds + 1, ?_⟩
  rw [List.replicate_succ, run_cons]
  refine ⟨next, ?_, ran⟩
  rw [step, here]
  exact took

private theorem Reaches.trans (first : Reaches allocates s mid)
    (second : Reaches allocates mid last) : Reaches allocates s last := by
  obtain ⟨rounds, ran⟩ := first
  obtain ⟨more, onward⟩ := second
  refine ⟨rounds + more, ?_⟩
  rw [List.replicate_add, run_append]
  exact ⟨mid, ran, onward⟩

private theorem shiftUp_reaches (sifting : s.atHeap = some (.sift ⟨.up, hole, e⟩ after))
    (returns : s.sHeap.shiftUp s.store.element hole e = some cells) (allocates : Bool) :
    Reaches allocates s { s with sHeap := ⟨cells, s.sHeap.n⟩, atHeap := some after.next } := by
  induction position : hole.toNat using Nat.strong_induction_on generalizing s hole with
  | _ _ ih =>
    subst position
    rcases shiftUp_round returns with ends | ⟨moved, below, round, onward⟩
    · exact .head sifting (by rw [advance, ends]; rfl) (.refl allocates _)
    · have above := parent_lt (Nat.pos_of_ne_zero (mt toNat_eq_zero.mp below))
      rw [← toNat_parent below] at above
      let next : EventQueue τ :=
        { s with
          sHeap := ⟨moved, s.sHeap.n⟩
          atHeap := some (.sift ⟨.up, (hole - 1) / 2, e⟩ after) }
      have took : s.advance allocates (.sift ⟨.up, hole, e⟩ after) = some next := by
        rw [advance, round]
        rfl
      exact .head sifting took (ih _ above (s := next) rfl onward rfl)

private theorem shiftDown_reaches (sifting : s.atHeap = some (.sift ⟨.down, hole, e⟩ after))
    (returns : s.sHeap.shiftDown s.store.element s.sHeap.n hole e = some cells)
    (allocates : Bool) :
    Reaches allocates s { s with sHeap := ⟨cells, s.sHeap.n⟩, atHeap := some after.next } := by
  induction distance : UInt32.size - hole.toNat using Nat.strong_induction_on
    generalizing s hole with
  | _ _ ih =>
    rcases shiftDown_round returns with ends | ⟨moved, child, deeper, round, onward⟩
    · exact .head sifting (by rw [advance, ends]; rfl) (.refl allocates _)
    · have below := UInt32.lt_iff_toNat_lt.mp deeper
      have bound := child.toNat_lt
      let next : EventQueue τ :=
        { s with
          sHeap := ⟨moved, s.sHeap.n⟩
          atHeap := some (.sift ⟨.down, child, e⟩ after) }
      have took : s.advance allocates (.sift ⟨.down, hole, e⟩ after) = some next := by
        rw [advance, round]
        rfl
      exact .head sifting took
        (ih _ (by rw [UInt32.size] at distance ⊢; omega) (s := next) rfl onward rfl)

/-- A push at the heap ends with what `min_heap_push` leaves. -/
theorem push_reaches (pushing : s.atHeap = some (.push event))
    (returns : s.sHeap.push s.store.element event allocates = some (heap, ret)) :
    Reaches allocates s { s with sHeap := heap, atHeap := some (.unlock []) } := by
  cases reserves : s.sHeap.reserve (s.sHeap.n + 1) allocates with
  | mk grown answer =>
    rw [MinHeap32.push, reserves] at returns
    dsimp only at returns
    by_cases done : answer = 0
    · rw [if_neg (not_not.mpr done)] at returns
      simp only [Option.bind_eq_bind, Option.bind_eq_some_iff, Option.some.injEq,
        Prod.mk.injEq] at returns
      obtain ⟨marked, marks, cells, sifts, rfl, -⟩ := returns
      let mark : EventQueue τ := { s with sHeap := grown, atHeap := some (.mark event) }
      let sift : EventQueue τ :=
        { s with
          sHeap := ⟨marked, grown.n + 1⟩
          atHeap := some (.sift ⟨.up, grown.n, event⟩ .pushed) }
      have reserved : s.advance allocates (.push event) = some mark := by
        rw [advance, reserves]
        dsimp only
        rw [if_neg (not_not.mpr done)]
      have counted : mark.advance allocates (.mark event) = some sift := by
        rw [advance, marks]
        rfl
      exact .head pushing reserved (.head rfl counted (shiftUp_reaches (s := sift) rfl sifts _))
    · rw [if_pos done] at returns
      obtain ⟨rfl, -⟩ := Prod.mk.inj (Option.some.inj returns)
      refine .head pushing ?_ (.refl allocates _)
      rw [advance, reserves]
      dsimp only
      rw [if_pos done]

/-- A pop at the heap ends with what `min_heap_pop` leaves. -/
theorem pop_reaches (popping : s.atHeap = some (.pop popper))
    (returns : s.sHeap.pop s.store.element = some (heap, e)) (allocates : Bool) :
    Reaches allocates s { s with sHeap := heap, atHeap := some popper.next } := by
  rw [MinHeap32.pop] at returns
  by_cases nonempty : s.sHeap.n ≠ 0
  · rw [if_pos nonempty] at returns
    simp only [Option.bind_eq_bind, Option.bind_eq_some_iff, Option.some.injEq,
      Prod.mk.injEq] at returns
    obtain ⟨top, first, last, reads, cells, sifts, marked, marks, rfl, -⟩ := returns
    let sift : EventQueue τ :=
      { s with
        sHeap := { s.sHeap with n := s.sHeap.n - 1 }
        atHeap := some (.sift ⟨.down, 0, last⟩ (.popped top popper)) }
    let unmark : EventQueue τ :=
      { s with sHeap := ⟨cells, s.sHeap.n - 1⟩, atHeap := some (.unmark top popper) }
    have took : s.advance allocates (.pop popper) = some sift := by
      rw [advance, if_pos nonempty, first, reads]
      rfl
    have sifted : Reaches allocates sift unmark := shiftDown_reaches (s := sift) rfl sifts allocates
    have ended : unmark.advance allocates (.unmark top popper) =
        some { s with sHeap := ⟨marked, s.sHeap.n - 1⟩, atHeap := some popper.next } := by
      rw [advance, marks]
      rfl
    exact .head popping took (sifted.trans (.head rfl ended (.refl allocates _)))
  · rw [if_neg nonempty] at returns
    obtain ⟨rfl, -⟩ := Prod.mk.inj (Option.some.inj returns)
    exact .head popping (by rw [advance, if_neg nonempty]) (.refl allocates _)

end TcpCongestion.QueueSteps
