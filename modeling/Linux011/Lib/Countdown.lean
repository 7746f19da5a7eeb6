import Mathlib.Data.List.Basic

/-!
# Loops that count down

Loops over a counter of 32 bits that store the same item in every turn, as in `while (n-- > k)`. Where a
counter stops matters to the loops behind it, which go on with it.

1. `after`: the test is before the counter goes down. `after_eq`.
2. `before`: the counter goes down first. `before_eq`.
-/

namespace Linux011.Countdown

variable {α : Type*}

/-- A counter above another one goes down by one. -/
theorem toInt_sub_one {k n : BitVec 32} (h : k.toInt < n.toInt) : (n - 1).toInt = n.toInt - 1 := by
  have hlt := n.toInt_lt
  have hle := k.le_toInt
  have hone : (1 : BitVec 32).toInt = 1 := rfl
  rw [BitVec.toInt_sub, hone, Int.bmod_eq_of_le] <;> omega

/-! ## The test first -/

/-- `while (k < n--) store c`: the counter it leaves, and the items stored so far with those it stores. -/
def after (k : BitVec 32) (c : α) (n : BitVec 32) (out : List α) : BitVec 32 × List α :=
  if k.toInt < n.toInt then after k c (n - 1) (out ++ [c]) else (n - 1, out)
termination_by (n.toInt - k.toInt).toNat
decreasing_by
  rename_i h
  rw [toInt_sub_one h]
  omega

/-- It stores as many items as the counter is above `k`, and leaves the counter below `k`. -/
theorem after_eq (k : BitVec 32) (c : α) (n : BitVec 32) (out : List α) : after k c n out =
    (if k.toInt < n.toInt then k - 1 else n - 1, out ++ List.replicate (n.toInt - k.toInt).toNat c) := by
  induction n, out using after.induct k c with
  | case1 n out h ih =>
    rw [after, if_pos h, ih, if_pos h, toInt_sub_one h]
    have hstep : (n.toInt - k.toInt).toNat = (n.toInt - 1 - k.toInt).toNat + 1 := by omega
    refine Prod.ext ?_ ?_
    · show (if k.toInt < n.toInt - 1 then k - 1 else n - 1 - 1) = k - 1
      split
      · rfl
      · have hn : n - 1 = k := by
          apply BitVec.eq_of_toInt_eq
          rw [toInt_sub_one h]
          omega
        rw [hn]
    · rw [hstep, List.replicate_succ, List.append_assoc]
      rfl
  | case2 n out h =>
    have hzero : (n.toInt - k.toInt).toNat = 0 := by omega
    rw [after, if_neg h, if_neg h, hzero, List.replicate_zero, List.append_nil]

/-! ## The counter first -/

/-- `while (k < --n) store c`. -/
def before (k : BitVec 32) (c : α) (n : BitVec 32) (out : List α) : BitVec 32 × List α :=
  if k.toInt < (n - 1).toInt then before k c (n - 1) (out ++ [c]) else (n - 1, out)
termination_by ((n - 1).toInt - k.toInt).toNat
decreasing_by
  rename_i h
  rw [toInt_sub_one h]
  omega

theorem before_eq (k : BitVec 32) (c : α) (n : BitVec 32) (out : List α) : before k c n out =
    (if k.toInt < (n - 1).toInt then k else n - 1,
      out ++ List.replicate ((n - 1).toInt - k.toInt).toNat c) := by
  induction n, out using before.induct k c with
  | case1 n out h ih =>
    rw [before, if_pos h, ih, if_pos h, toInt_sub_one h]
    have hstep : ((n - 1).toInt - k.toInt).toNat = ((n - 1).toInt - 1 - k.toInt).toNat + 1 := by omega
    refine Prod.ext ?_ ?_
    · show (if k.toInt < (n - 1).toInt - 1 then k else n - 1 - 1) = k
      split
      · rfl
      · apply BitVec.eq_of_toInt_eq
        rw [toInt_sub_one h]
        omega
    · rw [hstep, List.replicate_succ, List.append_assoc]
      rfl
  | case2 n out h =>
    have hzero : ((n - 1).toInt - k.toInt).toNat = 0 := by omega
    rw [before, if_neg h, if_neg h, hzero, List.replicate_zero, List.append_nil]

end Linux011.Countdown
