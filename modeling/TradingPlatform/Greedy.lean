import Mathlib.Algebra.Order.BigOperators.Group.List
import Mathlib.Algebra.Order.Ring.Nat

/-! Serving a queue of demands from a limited supply: whoever comes first is served first, and
in full as long as the supply lasts. -/
namespace TradingPlatform.Greedy

variable {κ ν : Type} {supply : Nat} {xs ys : List (κ × Nat)}

def demand (xs : List (κ × Nat)) : Nat := (xs.map Prod.snd).sum

def serve : Nat → List (κ × Nat) → List (κ × Nat)
  | _, [] => []
  | supply, (k,n) :: rest =>
    if supply = 0 then []
    else if n ≤ supply then (k,n) :: serve (supply - n) rest
    else [(k,supply)]

/-- What one of those who wait is given. -/
def portion [DecidableEq κ] (xs : List (κ × Nat)) (k : κ) : Nat := demand (xs.filter fun x => x.1 = k)

@[simp] theorem demand_nil : demand ([] : List (κ × Nat)) = 0 := rfl

@[simp] theorem demand_cons (x : κ × Nat) (xs : List (κ × Nat)) : demand (x :: xs) = x.2 + demand xs := by
  simp [demand]

@[simp] theorem demand_append (xs ys : List (κ × Nat)) : demand (xs ++ ys) = demand xs + demand ys := by
  simp [demand]

@[simp] theorem serve_none (xs : List (κ × Nat)) : serve 0 xs = [] := by
  cases xs <;> simp [serve]

/-- What the first part of a queue leaves goes to the rest of it. -/
theorem serve_append (supply : Nat) (xs ys : List (κ × Nat)) :
    serve supply (xs ++ ys) = serve supply xs ++ serve (supply - demand xs) ys := by
  induction xs generalizing supply with
  | nil => simp [serve]
  | cons x xs ih =>
    obtain ⟨k,n⟩ := x
    simp only [List.cons_append,serve,demand_cons]
    split
    · rename_i none
      simp [none]
    · split
      · rw [ih,List.cons_append,Nat.sub_add_eq]
      · rename_i short
        have spent : supply - (n + demand xs) = 0 := by omega
        simp [spent]

/-- The names of those who wait play no part. -/
theorem serve_map (f : κ → ν) (supply : Nat) (xs : List (κ × Nat)) :
    serve supply (xs.map (Prod.map f id)) = (serve supply xs).map (Prod.map f id) := by
  induction xs generalizing supply with
  | nil => rfl
  | cons x xs ih =>
    obtain ⟨k,n⟩ := x
    simp only [List.map_cons,Prod.map_apply,id_eq,serve]
    split
    · rfl
    · split
      · rw [ih,List.map_cons,Prod.map_apply,id_eq]
      · rfl

/-- Nobody is given more than they ask for. -/
theorem serve_within (served : (k,m) ∈ serve supply xs) : ∃ n, (k,n) ∈ xs ∧ m ≤ n := by
  induction xs generalizing supply with
  | nil => simp [serve] at served
  | cons x xs ih =>
    obtain ⟨j,n⟩ := x
    simp only [serve] at served
    split at served
    · simp at served
    · split at served
      · rcases List.mem_cons.mp served with first | later
        · obtain ⟨rfl,rfl⟩ := Prod.mk.inj first
          exact ⟨m,List.mem_cons_self,Nat.le_refl m⟩
        · obtain ⟨n',member,bound⟩ := ih later
          exact ⟨n',List.mem_cons_of_mem _ member,bound⟩
      · rename_i short
        obtain ⟨rfl,rfl⟩ := Prod.mk.inj (List.mem_singleton.mp served)
        exact ⟨n,List.mem_cons_self,by omega⟩

theorem serve_all (enough : demand xs ≤ supply) (wanted : ∀ x ∈ xs, 0 < x.2) : serve supply xs = xs := by
  induction xs generalizing supply with
  | nil => rfl
  | cons x xs ih =>
    obtain ⟨k,n⟩ := x
    have positive : 0 < n := wanted (k,n) List.mem_cons_self
    simp only [demand_cons] at enough
    have less : demand xs ≤ supply - n := by omega
    have rest := ih less fun y member => wanted y (List.mem_cons_of_mem _ member)
    simp only [serve]
    rw [if_neg (by omega),if_pos (by omega),rest]

/-- Nobody is served before those ahead of them have all they want. -/
theorem serve_in_turn (wanted : ∀ x ∈ xs, 0 < x.2) (distinct : (xs.map Prod.fst).Nodup)
    (ahead : [x,y].Sublist xs) (served : (y.1,m) ∈ serve supply xs) : x ∈ serve supply xs := by
  obtain ⟨front,back,rfl,first,second⟩ := List.cons_sublist_iff.mp ahead
  rw [serve_append] at served ⊢
  by_cases enough : demand front ≤ supply
  · rw [serve_all enough fun z member => wanted z (List.mem_append_left _ member)]
    exact List.mem_append_left _ first
  · have spent : supply - demand front = 0 := by omega
    rw [spent,serve_none,List.append_nil] at served
    obtain ⟨n,early,_⟩ := serve_within served
    rw [List.map_append,List.nodup_append] at distinct
    have late : y.1 ∈ back.map Prod.fst := List.mem_map_of_mem (List.singleton_sublist.mp second)
    exact absurd rfl (distinct.2.2 y.1 (List.mem_map.mpr ⟨(y.1,n),early,rfl⟩) y.1 late)

/-- Those who stay when others leave a line stay in the same order. -/
theorem ahead_of_sublist {xs ys : List κ} (distinct : ys.Nodup) (fewer : xs.Sublist ys) (ahead : [x,y].Sublist ys)
    (first : x ∈ xs) (second : y ∈ xs) : [x,y].Sublist xs := by
  induction fewer with
  | slnil => exact ahead
  | cons z fewer ih =>
    have apart := (List.nodup_cons.mp distinct).1
    rcases List.sublist_cons_iff.mp ahead with later | ⟨rest,same,_⟩
    · exact ih (List.nodup_cons.mp distinct).2 later first second
    · obtain ⟨rfl,_⟩ := List.cons.inj same
      exact absurd (fewer.subset first) apart
  | cons_cons z fewer ih =>
    obtain ⟨apart,distinct⟩ := List.nodup_cons.mp distinct
    rcases List.sublist_cons_iff.mp ahead with later | ⟨rest,same,inside⟩
    · have other (w) (member : w ∈ [x,y]) : w ≠ z := by
        rintro rfl
        exact apart (later.subset member)
      have first' := (List.mem_cons.mp first).resolve_left (other x (by simp))
      have second' := (List.mem_cons.mp second).resolve_left (other y (by simp))
      exact (ih distinct later first' second').cons _
    · obtain ⟨rfl,rfl⟩ := List.cons.inj same
      have other : y ≠ x := by
        rintro rfl
        exact apart (List.singleton_sublist.mp inside)
      exact (List.singleton_sublist.mpr ((List.mem_cons.mp second).resolve_left other)).cons_cons _

/-- Those ahead of a member of the front part of a line are in the front part. -/
theorem ahead_in_front {xs ys : List κ} (distinct : ys.Nodup) (part : xs <+: ys) (ahead : [x,y].Sublist ys)
    (second : y ∈ xs) : [x,y].Sublist xs := by
  obtain ⟨back,rfl⟩ := part
  obtain ⟨_,_,disjoint⟩ := List.nodup_append.mp distinct
  obtain ⟨front,rest,split,inFront,inBack⟩ := List.sublist_append_iff.mp ahead
  rcases List.eq_nil_or_concat rest with rfl | ⟨init,last,rfl⟩
  · rw [List.append_nil] at split
    exact split ▸ inFront
  · have same : y = last := by
      have ends := congrArg List.getLast? split
      simpa using ends
    exact absurd rfl (disjoint y second y (same ▸ inBack.subset (by simp)))

end TradingPlatform.Greedy
