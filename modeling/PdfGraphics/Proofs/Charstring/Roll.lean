import PdfGraphics.Proofs.Charstring.Bounded
/-!
Rolling the values at the top of the stack.

A roll turns a group of values round. Turns add up and a full turn changes nothing, so the integers
act on each group, and a turn back undoes any other.
-/

namespace PdfGraphics.Charstring

namespace Stack

variable {n : Nat} {j k : Int} {s s' : Stack}

-- The top `n` values, of which the bottom one comes first.
def group (n : Nat) (s : Stack) : List Float32 :=
  (s.take n).reverse

-- Each value of the group goes up by `j` places. What would go beyond one end of it comes in at the
-- other end.
structure Turned (n : Nat) (j : Int) (s s' : Stack) : Prop where
  below : s'.drop n = s.drop n
  moved : ∀ i < n, (group n s')[((i + j) % n).toNat]? = (group n s)[i]?

-- The stack that a roll leaves.
def turn (n : Nat) (j : Int) (s : Stack) : Stack :=
  (s.take n).rotate (j % n).toNat ++ s.drop n

theorem roll_eq_turn (j : Int) (hn : 0 < n) (hs : n ≤ s.length) : roll n j s = .ok (turn n j s) := by
  rw [roll, if_neg (by omega), Int.toNat_natCast, if_neg (Nat.not_lt.mpr hs), rotateLeft_eq_rotate,
    turn]

theorem take_turn (hs : n ≤ s.length) : (turn n j s).take n = (s.take n).rotate (j % n).toNat :=
  List.take_left' (by rw [List.length_rotate, List.length_take_of_le hs])

theorem drop_turn (hs : n ≤ s.length) : (turn n j s).drop n = s.drop n :=
  List.drop_left' (by rw [List.length_rotate, List.length_take_of_le hs])

theorem length_turn : (turn n j s).length = s.length := by
  rw [turn, List.length_append, List.length_rotate, ← List.length_append, List.take_append_drop]

theorem turn_perm : (turn n j s).Perm s := by
  have h := (List.rotate_perm (s.take n) (j % n).toNat).append_right (s.drop n)
  rwa [List.take_append_drop] at h

-- Turns by numbers of places that differ by full turns are the same.
theorem rotate_eq_of_emod {α : Type} {xs : List α} {a b : Nat}
    (h : a % xs.length = b % xs.length) : xs.rotate a = xs.rotate b := by
  rw [← List.rotate_mod, h, List.rotate_mod]

theorem turn_turn (hn : 0 < n) (hs : n ≤ s.length) : turn n k (turn n j s) = turn n (j + k) s := by
  have hplace (i : Int) : ((i % n).toNat : Int) = i % n :=
    Int.toNat_of_nonneg (Int.emod_nonneg i (by omega))
  rw [turn, take_turn hs, drop_turn hs, List.rotate_rotate, turn]
  refine congrArg (· ++ _) (rotate_eq_of_emod (Int.natCast_inj.mp ?_))
  rw [List.length_take_of_le hs, Int.natCast_emod, Int.natCast_add, Int.natCast_emod, hplace,
    hplace, hplace, ← Int.add_emod, Int.emod_emod]

theorem turn_of_dvd (h : (n : Int) ∣ j) : turn n j s = s := by
  rw [turn, Int.emod_eq_zero_of_dvd h, Int.toNat_zero, List.rotate_zero, List.take_append_drop]

theorem getElem?_group (hs : n ≤ s.length) {i : Nat} (hi : i < n) :
    (group n s)[i]? = (s.take n)[n - 1 - i]? := by
  rw [group, List.getElem?_reverse (by rw [List.length_take_of_le hs]; exact hi),
    List.length_take_of_le hs]

-- The place that a turn takes a value to, counted from the bottom of the group, is the place that
-- the rotation takes it from, counted from the top.
theorem place_of_turn {i : Nat} (hi : i < n) :
    (n - 1 - ((i + j) % n).toNat + (j % n).toNat) % n = n - 1 - i := by
  have hn : (n : Int) ≠ 0 := by omega
  have hj := Int.emod_nonneg j hn
  have hlt := Int.emod_lt_of_pos j (show (0 : Int) < n by omega)
  have hplace : (i + j) % n = (i + j % n) % n := (Int.add_emod_emod ..).symm
  rcases Int.lt_or_le (i + j % n) n with hin | hout
  case inl =>
    have hp : (i + j) % n = i + j % n := hplace.trans (Int.emod_eq_of_lt (by omega) hin)
    rw [hp, Nat.mod_eq_of_lt (by omega)]
    omega
  case inr =>
    have hp : (i + j) % n = i + j % n - n := by
      rw [hplace, ← Int.sub_emod_right, Int.emod_eq_of_lt (by omega) (by omega)]
    rw [hp, Nat.mod_eq_sub_mod (by omega), Nat.mod_eq_of_lt (by omega)]
    omega

theorem turned_turn (hs : n ≤ s.length) : Turned n j s (turn n j s) where
  below := drop_turn hs
  moved i hi := by
    have hn : (n : Int) ≠ 0 := by omega
    have hge := Int.emod_nonneg (i + j) hn
    have hlt := Int.emod_lt_of_pos (i + j) (show (0 : Int) < n by omega)
    rw [getElem?_group (by rwa [length_turn]) (by omega), getElem?_group hs hi, take_turn hs,
      List.getElem?_rotate (by rw [List.length_take_of_le hs]; omega), List.length_take_of_le hs,
      place_of_turn hi]

-- What a roll of the top `n` values comes to, for an operator that finds the two numbers above the
-- stack `s`. Where there is such a group the integers act on it, and no value is lost.
theorem roll_acts (n : Int) (s : Stack) :
    (n ≤ 0 → ∀ j, roll n j s = .error .invalidOperand) ∧
    (0 < n → s.length < n → ∀ j, roll n j s = .error .stackUnderflow) ∧
    (0 < n → n ≤ s.length →
      (∀ j, ∃ s', roll n j s = .ok s' ∧ Turned n.toNat j s s' ∧ s'.Perm s) ∧
      (∀ j k, roll n j s >>= roll n k = roll n (j + k) s) ∧
      (∀ j, roll n j s >>= roll n (-j) = .ok s) ∧
      ∀ j, n ∣ j → roll n j s = .ok s) ∧
    ∀ ctx (m : Machine) vn vj, m.state.stack = vj :: vn :: s → Binary32.truncate vn = n →
      Machine.execute ctx (.arithmetic .roll) m =
        m.proceed ((roll n (Binary32.truncate vj) s).map fun stack => { m.state with stack }) := by
  refine ⟨fun hn j => if_pos hn, fun hn hs j => ?_, fun hn hs => ?_, fun ctx m vn vj hm hv => ?_⟩
  case refine_1 => rw [roll, if_neg (by omega), if_pos (by omega)]
  case refine_2 =>
    lift n to Nat using Int.le_of_lt hn
    have hn : 0 < n := by omega
    have hs : n ≤ s.length := by omega
    have hroll (j : Int) := roll_eq_turn j hn hs
    have hadd (j k : Int) : roll n j s >>= roll n k = roll n (j + k) s := by
      rw [hroll, hroll, ← turn_turn hn hs]
      exact roll_eq_turn k hn (by rwa [length_turn])
    have hfull (j : Int) (h : (n : Int) ∣ j) : roll n j s = .ok s := by
      rw [hroll, turn_of_dvd h]
    refine ⟨fun j => ⟨_, hroll j, turned_turn hs, turn_perm⟩, hadd, fun j => ?_, hfull⟩
    rw [hadd, Int.add_right_neg]
    exact hfull 0 (Int.dvd_zero _)
  case refine_3 => simp only [Machine.execute, State.compute, hm, hv]

-- Of five values the upper four go down by one place, and up again. The lowest of the four comes to
-- the top.
theorem roll_acts_down :
    roll 4 (-1) [5, 4, 3, 2, 1] = .ok [2, 5, 4, 3, 1] ∧
    Turned 4 (-1) [5, 4, 3, 2, 1] [2, 5, 4, 3, 1] ∧
    roll 4 (-1) [5, 4, 3, 2, 1] >>= roll 4 1 = .ok [5, 4, 3, 2, 1] ∧
    roll 4 (-8) [5, 4, 3, 2, 1] = .ok [5, 4, 3, 2, 1] ∧
    roll 0 (-1) [5, 4, 3, 2, 1] = .error .invalidOperand ∧
    roll 6 (-1) [5, 4, 3, 2, 1] = .error .stackUnderflow ∧
    Machine.execute {} (.arithmetic .roll)
        { state := { stack := [-1, 4, 5, 4, 3, 2, 1] }, code := [] } =
      .next { state := { stack := [2, 5, 4, 3, 1] }, code := [] } := by
  have ⟨_, _, acts, executes⟩ := roll_acts 4 [5, 4, 3, 2, 1]
  have ⟨turned, _, back, full⟩ := acts (by decide) (by decide)
  have hr : roll 4 (-1) [5, 4, 3, 2, 1] = .ok [2, 5, 4, 3, 1] := by decide +kernel
  have ⟨s', hs', ht, _⟩ := turned (-1)
  cases hr.symm.trans hs'
  refine ⟨hr, ht, back (-1), full (-8) (by decide), (roll_acts 0 _).left (by decide) (-1),
    (roll_acts 6 _).right.left (by decide) (by decide) (-1), ?_⟩
  have hv : Binary32.truncate (-1) = -1 := by decide +kernel
  rw [executes {} _ 4 (-1) rfl (by decide +kernel), hv, hr]
  rfl

end Stack

end PdfGraphics.Charstring
