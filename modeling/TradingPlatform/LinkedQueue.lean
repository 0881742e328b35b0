import Mathlib.Data.List.Nodup

/-! Doubly linked queues over arbitrary references. A queue is described by the
list of references it threads; the two link functions belong to a shared store,
so every operation also has to say that other queues keep their links. -/
namespace TradingPlatform.LinkedQueue

/-- The references in order, each pointing at its neighbours. `before` is what the
first one points back to, and the last one points forward to nothing. -/
def Linked (next prev : ρ → Option ρ) : Option ρ → List ρ → Prop
  | _, [] => True
  | before, x :: xs => prev x = before ∧ next x = xs.head? ∧ Linked next prev (some x) xs

variable {ρ : Type} {next prev next' prev' : ρ → Option ρ}

theorem Linked.congr (linked : Linked next prev before xs)
    (same : ∀ y ∈ xs, next' y = next y ∧ prev' y = prev y) : Linked next' prev' before xs := by
  induction xs generalizing before with
  | nil => trivial
  | cons x xs ih =>
    obtain ⟨back,forward,rest⟩ := linked
    obtain ⟨nextSame,prevSame⟩ := same x (by simp)
    exact ⟨prevSame.trans back,nextSame.trans forward,
      ih rest (fun y member => same y (List.mem_cons_of_mem _ member))⟩

theorem Linked.next_at (linked : Linked next prev before (front ++ x :: back)) :
    next x = back.head? := by
  induction front generalizing before with
  | nil => exact linked.2.1
  | cons a front ih => exact ih linked.2.2

theorem Linked.prev_at (linked : Linked next prev before (front ++ x :: back)) :
    prev x = front.getLast?.or before := by
  induction front generalizing before with
  | nil => simpa using linked.1
  | cons a front ih =>
    rw [ih linked.2.2]
    cases front <;> simp [List.getLast?_cons]

variable [DecidableEq ρ]

/-- Unlinking one member joins its neighbours. The hypotheses are the pointwise
effect of the unlinking writes outside the removed member. -/
theorem Linked.unlink (linked : Linked next prev before (front ++ x :: back))
    (distinct : (front ++ x :: back).Nodup) (outside : ∀ y ∈ front ++ x :: back, before ≠ some y)
    (nexts : ∀ y, y ≠ x → next' y = if prev x = some y then next x else next y)
    (prevs : ∀ y, y ≠ x → prev' y = if next x = some y then prev x else prev y) :
    Linked next' prev' before (front ++ back) := by
  have forward := linked.next_at
  have backward := linked.prev_at
  induction front generalizing before with
  | nil =>
    simp only [List.nil_append,List.getLast?_nil,Option.none_or] at linked distinct outside backward ⊢
    cases back with
    | nil => trivial
    | cons c cs =>
      obtain ⟨_,_,_,cNext,rest⟩ := linked
      simp only [List.nodup_cons,List.mem_cons,not_or] at distinct
      have apart (y : ρ) (member : y ∈ c :: cs) : before ≠ some y :=
        outside y (List.mem_cons_of_mem _ member)
      refine ⟨?_,?_,rest.congr fun y member => ⟨?_,?_⟩⟩
      · simp [prevs c (Ne.symm distinct.1.1),forward,backward]
      · simp [nexts c (Ne.symm distinct.1.1),backward,apart c (by simp),cNext]
      · have other : y ≠ x := fun eq => distinct.1.2 (eq ▸ member)
        simp [nexts y other,backward,apart y (by simp [member])]
      · have other : y ≠ x := fun eq => distinct.1.2 (eq ▸ member)
        have later : c ≠ y := fun eq => distinct.2.1 (eq ▸ member)
        simp [prevs y other,forward,later]
  | cons a front ih =>
    obtain ⟨aPrev,aNext,rest⟩ := linked
    have fresh : a ∉ front ++ x :: back := (List.nodup_cons.mp distinct).1
    have ax : a ≠ x := fun eq => fresh (by simp [eq])
    refine ⟨?_,?_,ih rest (List.nodup_cons.mp distinct).2 ?_ rest.prev_at⟩
    · have later : next x ≠ some a := by
        rw [forward]
        intro eq
        exact fresh (by simp [List.mem_of_mem_head? (Option.mem_def.mpr eq)])
      simp [prevs a ax,later,aPrev]
    · rw [nexts a ax,rest.prev_at]
      cases front with
      | nil => simp [forward]
      | cons b front =>
        have earlier : (b :: front).getLast? ≠ some a := by
          intro eq
          exact fresh (List.mem_append_left _ (List.mem_of_getLast? eq))
        simp only [List.getLast?_cons,Option.some_or] at earlier ⊢
        simp only [earlier,if_false]
        simpa using aNext
    · intro y member eq
      exact fresh (Option.some.inj eq ▸ member)

/-- Linking a reference behind the last member. -/
theorem Linked.snoc (linked : Linked next prev before xs) (distinct : xs.Nodup)
    (nexts : ∀ y ∈ xs, next' y = if xs.getLast? = some y then some x else next y)
    (prevs : ∀ y ∈ xs, prev' y = prev y) (last : next' x = none)
    (first : prev' x = xs.getLast?.or before) : Linked next' prev' before (xs ++ [x]) := by
  induction xs generalizing before with
  | nil => exact ⟨by simpa using first,by simpa using last,trivial⟩
  | cons a xs ih =>
    obtain ⟨aPrev,aNext,rest⟩ := linked
    have fresh : a ∉ xs := (List.nodup_cons.mp distinct).1
    refine ⟨(prevs a (by simp)).trans aPrev,?_,ih rest (List.nodup_cons.mp distinct).2 ?_ ?_ ?_⟩
    · rw [nexts a (by simp)]
      cases xs with
      | nil => simp
      | cons b xs =>
        have earlier : (b :: xs).getLast? ≠ some a := fun eq => fresh (List.mem_of_getLast? eq)
        simp only [List.getLast?_cons_cons,earlier,if_false,aNext]
        simp
    · intro y member
      rw [nexts y (List.mem_cons_of_mem _ member)]
      cases xs with
      | nil => simp at member
      | cons b xs => simp only [List.getLast?_cons_cons]
    · exact fun y member => prevs y (List.mem_cons_of_mem _ member)
    · rw [first]
      cases xs <;> simp [List.getLast?_cons]

end TradingPlatform.LinkedQueue
