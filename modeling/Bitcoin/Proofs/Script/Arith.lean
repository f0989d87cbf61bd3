import Bitcoin.Proofs.Script.MultisigLayout
import Bitcoin.Proofs.Script.Number

/-! # The numeric opcodes compute exactly

Each numeric opcode pops operands of at most four bytes, computes on 64-bit integers and pushes
the result as a script number. An operand of at most four bytes lies within `2^31 - 1` of zero
(`ScriptNum.toInt_decode_mem`), so no sum, difference or negation of operands wraps, and each
opcode pushes the integer its operation gives over `ℤ` (`NumOp.action_exact`). The binary opcodes
read `a`, the second element, and `b`, the top; `OP_WITHIN` reads `x`, `min` and `max`, with `max`
on top. An operand that is missing or longer than four bytes makes the opcode fail.
-/

namespace Bitcoin

/-- The numeric opcodes. -/
inductive NumOp where
  | add1 | sub1 | negate | abs | not | zeroNotEqual
  | add | sub | boolAnd | boolOr | numEqual | numEqualVerify | numNotEqual
  | lessThan | greaterThan | lessThanOrEqual | greaterThanOrEqual | min | max | within
  deriving DecidableEq, Repr

namespace NumOp

def code : NumOp → UInt8
  | add1 => 0x8b | sub1 => 0x8c | negate => 0x8f | abs => 0x90 | not => 0x91
  | zeroNotEqual => 0x92 | add => 0x93 | sub => 0x94 | boolAnd => 0x9a | boolOr => 0x9b
  | numEqual => 0x9c | numEqualVerify => 0x9d | numNotEqual => 0x9e | lessThan => 0x9f
  | greaterThan => 0xa0 | lessThanOrEqual => 0xa1 | greaterThanOrEqual => 0xa2 | min => 0xa3
  | max => 0xa4 | within => 0xa5

def arity : NumOp → Nat
  | add1 | sub1 | negate | abs | not | zeroNotEqual => 1
  | within => 3
  | _ => 2

/-- The result over the integers, from the operands in the order they were pushed: `a` then `b`,
or `x`, `min`, `max`. A comparison gives 1 or 0; `OP_NUMEQUALVERIFY` computes what
`OP_NUMEQUAL` does. -/
def exact : NumOp → List Int → Int
  | add1, [a] => a + 1
  | sub1, [a] => a - 1
  | negate, [a] => -a
  | abs, [a] => |a|
  | not, [a] => if a = 0 then 1 else 0
  | zeroNotEqual, [a] => if a = 0 then 0 else 1
  | add, [a, b] => a + b
  | sub, [a, b] => a - b
  | boolAnd, [a, b] => if a ≠ 0 ∧ b ≠ 0 then 1 else 0
  | boolOr, [a, b] => if a ≠ 0 ∨ b ≠ 0 then 1 else 0
  | numEqual, [a, b] | numEqualVerify, [a, b] => if a = b then 1 else 0
  | numNotEqual, [a, b] => if a = b then 0 else 1
  | lessThan, [a, b] => if a < b then 1 else 0
  | greaterThan, [a, b] => if a > b then 1 else 0
  | lessThanOrEqual, [a, b] => if a ≤ b then 1 else 0
  | greaterThanOrEqual, [a, b] => if a ≥ b then 1 else 0
  | min, [a, b] => Min.min a b
  | max, [a, b] => Max.max a b
  | within, [x, lo, hi] => if lo ≤ x ∧ x < hi then 1 else 0
  | _, _ => 0

end NumOp

namespace Machine

variable {alt : Stack} {z : Nat} {rest : List Bytes}

open Semantics

theorem unary_run {f : Int64 → Int64} {x : Bytes} (hx : x.length ≤ 4) :
    unary f ⟨⟨x :: rest⟩, alt, z⟩ =
      (true, ⟨⟨ScriptNum.encode (f (ScriptNum.decode x)) :: rest⟩, alt, z⟩) := by
  rw [unary, stateM_bind_run (popNum_run alt z hx rest)]
  rfl

theorem binary_run {f : Int64 → Int64 → Int64} {a b : Bytes} (ha : a.length ≤ 4)
    (hb : b.length ≤ 4) :
    binary f ⟨⟨b :: a :: rest⟩, alt, z⟩ =
      (true,
        ⟨⟨ScriptNum.encode (f (ScriptNum.decode a) (ScriptNum.decode b)) :: rest⟩, alt, z⟩) := by
  have hsize : ¬(⟨⟨b :: a :: rest⟩, alt, z⟩ : Machine).stack.size < 2 := by
    simp [Stack.size]
  rw [binary, stateM_bind_run (size_run _)]
  dsimp only
  rw [if_neg hsize, stateM_bind_run (popNum_run alt z hb _)]
  dsimp only
  rw [stateM_bind_run (popNum_run alt z ha _)]
  rfl

theorem within_run {x lo hi : Bytes} (hx : x.length ≤ 4) (hlo : lo.length ≤ 4)
    (hhi : hi.length ≤ 4) :
    within ⟨⟨hi :: lo :: x :: rest⟩, alt, z⟩ =
      (true, ⟨⟨ScriptNum.encode (if (ScriptNum.decode lo ≤ ScriptNum.decode x &&
        ScriptNum.decode x < ScriptNum.decode hi) then 1 else 0) :: rest⟩, alt, z⟩) := by
  have hsize : ¬(⟨⟨hi :: lo :: x :: rest⟩, alt, z⟩ : Machine).stack.size < 3 := by
    simp [Stack.size]
  rw [within, stateM_bind_run (size_run _)]
  dsimp only
  rw [if_neg hsize, stateM_bind_run (popNum_run alt z hhi _),
    stateM_bind_run (popNum_run alt z hlo _), stateM_bind_run (popNum_run alt z hx _)]
  rfl

theorem unary_short {f : Int64 → Int64} {items : List Bytes}
    (h : items.length < 1 ∨ ∃ e ∈ items.take 1, 4 < e.length) :
    (unary f ⟨⟨items⟩, alt, z⟩).1 = false := by
  match items, h with
  | [], _ => rfl
  | x :: rest, .inl h => simp at h
  | x :: rest, .inr ⟨e, he, hlong⟩ =>
      simp only [List.take_succ_cons, List.take_zero, List.mem_singleton] at he
      subst he
      rw [unary, stateM_bind_run (popNum_long alt z hlong rest)]
      rfl

theorem binary_short {f : Int64 → Int64 → Int64} {items : List Bytes}
    (h : items.length < 2 ∨ ∃ e ∈ items.take 2, 4 < e.length) :
    (binary f ⟨⟨items⟩, alt, z⟩).1 = false := by
  by_cases hsize : (⟨⟨items⟩, alt, z⟩ : Machine).stack.size < 2
  · rw [binary, stateM_bind_run (size_run _)]
    dsimp only
    rw [if_pos hsize]
    rfl
  obtain ⟨b, a, rest, rfl⟩ : ∃ b a rest, items = b :: a :: rest := by
    match items, hsize with
    | b :: a :: rest, _ => exact ⟨b, a, rest, rfl⟩
    | [], h | [_], h => simp [Stack.size] at h
  have hlong : 4 < b.length ∨ 4 < a.length := by
    simp only [List.length_cons, List.take_succ_cons, List.take_zero, List.mem_cons,
      List.not_mem_nil, or_false] at h
    rcases h with h | ⟨e, rfl | rfl, he⟩ <;> omega
  rw [binary, stateM_bind_run (size_run _)]
  dsimp only
  rw [if_neg hsize]
  by_cases hb : 4 < b.length
  · rw [stateM_bind_run (popNum_long alt z hb _)]
    rfl
  · rw [stateM_bind_run (popNum_run alt z (by omega) _)]
    dsimp only
    rw [stateM_bind_run (popNum_long alt z (by omega) _)]
    rfl

theorem popNum_cons (x : Bytes) (rest : List Bytes) :
    popNum ⟨⟨x :: rest⟩, alt, z⟩ =
      (if x.length ≤ 4 then some (ScriptNum.decode x) else none, ⟨⟨rest⟩, alt, z⟩) := by
  by_cases hx : x.length ≤ 4
  · rw [if_pos hx, popNum_run alt z hx]
  · rw [if_neg hx, popNum_long alt z (by omega)]

/-- `OP_WITHIN` pops all three operands before it looks at any of them. -/
theorem within_short {items : List Bytes}
    (h : items.length < 3 ∨ ∃ e ∈ items.take 3, 4 < e.length) :
    (within ⟨⟨items⟩, alt, z⟩).1 = false := by
  by_cases hsize : (⟨⟨items⟩, alt, z⟩ : Machine).stack.size < 3
  · rw [within, stateM_bind_run (size_run _)]
    dsimp only
    rw [if_pos hsize]
    rfl
  obtain ⟨hi, lo, x, rest, rfl⟩ : ∃ hi lo x rest, items = hi :: lo :: x :: rest := by
    match items, hsize with
    | hi :: lo :: x :: rest, _ => exact ⟨hi, lo, x, rest, rfl⟩
    | [], h | [_], h | [_, _], h => simp [Stack.size] at h
  have hlong : ¬hi.length ≤ 4 ∨ ¬lo.length ≤ 4 ∨ ¬x.length ≤ 4 := by
    simp only [List.length_cons, List.take_succ_cons, List.take_zero, List.mem_cons,
      List.not_mem_nil, or_false] at h
    rcases h with h | ⟨e, rfl | rfl | rfl, he⟩ <;> omega
  rw [within, stateM_bind_run (size_run _)]
  dsimp only
  rw [if_neg hsize, stateM_bind_run (popNum_cons hi _), stateM_bind_run (popNum_cons lo _),
    stateM_bind_run (popNum_cons x _)]
  -- the operands are matched in popping order, so a long one fails the match whatever follows
  rcases hlong with hlong | hlong | hlong
  · rw [if_neg hlong]
    rfl
  · rw [if_neg hlong]
    split_ifs <;> rfl
  · rw [if_neg hlong]
    split_ifs <;> rfl

end Machine

namespace Semantics

/-! ## Operations on small operands do not wrap -/

section Exact

variable {a b : Int64}

theorem toInt_add_of_small (ha : a.toInt.natAbs < 2 ^ 32) (hb : b.toInt.natAbs < 2 ^ 32) :
    (a + b).toInt = a.toInt + b.toInt := by
  rw [Int64.toInt_add]
  exact Int.bmod_eq_of_le (by norm_num; omega) (by norm_num; omega)

theorem toInt_sub_of_small (ha : a.toInt.natAbs < 2 ^ 32) (hb : b.toInt.natAbs < 2 ^ 32) :
    (a - b).toInt = a.toInt - b.toInt := by
  rw [Int64.toInt_sub]
  exact Int.bmod_eq_of_le (by norm_num; omega) (by norm_num; omega)

theorem toInt_neg_of_small (ha : a.toInt.natAbs < 2 ^ 32) : (-a).toInt = -a.toInt := by
  rw [Int64.toInt_neg]
  exact Int.bmod_eq_of_le (by norm_num; omega) (by norm_num; omega)

theorem toInt_ofBool (p : Prop) [Decidable p] : (ofBool (decide p)).toInt = if p then 1 else 0 := by
  by_cases hp : p <;> simp [ofBool, hp]

theorem toInt_ofBool_of_iff {p q : Prop} [Decidable p] [Decidable q] (h : p ↔ q) :
    (ofBool (decide p)).toInt = if q then 1 else 0 := by
  rw [toInt_ofBool]
  exact if_congr h rfl rfl

theorem toInt_ofBool_not_of_iff {p q : Prop} [Decidable p] [Decidable q] (h : p ↔ q) :
    (ofBool (decide ¬p)).toInt = if q then 0 else 1 := by
  rw [toInt_ofBool_of_iff (not_congr h), ite_not]

theorem eq_iff_toInt_eq : a = b ↔ a.toInt = b.toInt := Int64.toInt_inj.symm

theorem eq_zero_iff_toInt_eq_zero : a = 0 ↔ a.toInt = 0 := by
  rw [eq_iff_toInt_eq, Int64.toInt_zero]

theorem toInt_abs_of_small (ha : a.toInt.natAbs < 2 ^ 32) :
    (if a < 0 then -a else a).toInt = |a.toInt| := by
  split_ifs with h
  · rw [Int64.lt_iff_toInt_lt, Int64.toInt_zero] at h
    rw [toInt_neg_of_small ha, abs_of_neg h]
  · rw [Int64.lt_iff_toInt_lt, Int64.toInt_zero, not_lt] at h
    rw [abs_of_nonneg h]

theorem toInt_min : (if a ≤ b then a else b).toInt = min a.toInt b.toInt := by
  split_ifs with h <;> rw [Int64.le_iff_toInt_le] at h <;> omega

theorem toInt_max : (if a ≤ b then b else a).toInt = max a.toInt b.toInt := by
  split_ifs with h <;> rw [Int64.le_iff_toInt_le] at h <;> omega

end Exact

/-! ## The shapes of the numeric opcodes -/

/-- `act` reads its top `k` elements as numbers, listed in `args` in the order they were pushed,
and replaces them by the number `v` with `v.toInt = g` of their values; an element missing or
longer than four bytes makes it fail. -/
def PushesExact (act : Action) (k : Nat) (g : List Int → Int) : Prop :=
  ∀ m : Machine,
    (∀ (args rest : List Bytes), m.stack.items = args.reverse ++ rest → args.length = k →
      (∀ e ∈ args, e.length ≤ 4) →
      ∃ v : Int64, v.toInt = g (args.map fun e => (ScriptNum.decode e).toInt) ∧
        act m = (true, { m with stack := ⟨ScriptNum.encode v :: rest⟩ })) ∧
    ((m.stack.size < k ∨ ∃ e ∈ m.stack.items.take k, 4 < e.length) → (act m).1 = false)

theorem natAbs_toInt_decode_lt {e : Bytes} (h : e.length ≤ 4) :
    (ScriptNum.decode e).toInt.natAbs < 2 ^ 31 := by
  have := ScriptNum.toInt_decode_mem h
  omega

theorem unary_pushesExact {f : Int64 → Int64} {g : List Int → Int}
    (hfg : ∀ a : Int64, a.toInt.natAbs < 2 ^ 31 → (f a).toInt = g [a.toInt]) :
    PushesExact (unary f) 1 g := by
  rintro ⟨⟨items⟩, alt, z⟩
  refine ⟨fun args rest hitems hlen hshort => ?_, fun h => Machine.unary_short h⟩
  obtain ⟨x, rfl⟩ := List.length_eq_one_iff.1 hlen
  have hx := hshort x (by simp)
  dsimp only at hitems
  subst hitems
  exact ⟨f (ScriptNum.decode x), hfg _ (natAbs_toInt_decode_lt hx), Machine.unary_run hx⟩

theorem binary_pushesExact {f : Int64 → Int64 → Int64} {g : List Int → Int}
    (hfg : ∀ a b : Int64, a.toInt.natAbs < 2 ^ 31 → b.toInt.natAbs < 2 ^ 31 →
      (f a b).toInt = g [a.toInt, b.toInt]) :
    PushesExact (binary f) 2 g := by
  rintro ⟨⟨items⟩, alt, z⟩
  refine ⟨fun args rest hitems hlen hshort => ?_, fun h => Machine.binary_short h⟩
  obtain ⟨a, b, rfl⟩ := List.length_eq_two.1 hlen
  have ha := hshort a (by simp)
  have hb := hshort b (by simp)
  dsimp only at hitems
  simp only [List.reverse_cons, List.reverse_nil, List.nil_append, List.cons_append] at hitems
  subst hitems
  exact ⟨f (ScriptNum.decode a) (ScriptNum.decode b),
    hfg _ _ (natAbs_toInt_decode_lt ha) (natAbs_toInt_decode_lt hb), Machine.binary_run ha hb⟩

theorem within_pushesExact : PushesExact within 3 (NumOp.exact .within) := by
  rintro ⟨⟨items⟩, alt, z⟩
  refine ⟨fun args rest hitems hlen hshort => ?_, fun h => Machine.within_short h⟩
  obtain ⟨x, lo, hi, rfl⟩ := List.length_eq_three.1 hlen
  have hx := hshort x (by simp)
  have hlo := hshort lo (by simp)
  have hhi := hshort hi (by simp)
  dsimp only at hitems
  simp only [List.reverse_cons, List.reverse_nil, List.nil_append, List.cons_append] at hitems
  subst hitems
  refine ⟨_, ?_, Machine.within_run hx hlo hhi⟩
  show (ofBool (decide (ScriptNum.decode lo ≤ ScriptNum.decode x) &&
    decide (ScriptNum.decode x < ScriptNum.decode hi))).toInt = _
  rw [← Bool.decide_and]
  exact toInt_ofBool_of_iff (and_congr Int64.le_iff_toInt_le Int64.lt_iff_toInt_lt)

theorem andVerify_short {a : Action} {m : Machine} (h : (a m).1 = false) :
    (andVerify a m).1 = false := by
  rcases hm : a m with ⟨b, m'⟩
  obtain rfl : b = false := by rw [hm] at h; exact h
  show ((do let b ← a; if b then verify else pure false) m).1 = false
  simp only [bind, StateT.bind, hm]
  rfl

theorem numEqualVerify_run {a b : Bytes} {rest : List Bytes} {alt : Stack} {z : Nat}
    (ha : a.length ≤ 4) (hb : b.length ≤ 4) :
    andVerify (binary fun a b => ofBool (a = b)) ⟨⟨b :: a :: rest⟩, alt, z⟩ =
      (decide (ofBool (decide (ScriptNum.decode a = ScriptNum.decode b)) = 1),
        ⟨⟨rest⟩, alt, z⟩) := by
  rw [andVerify_run (Machine.binary_run ha hb), verify_run]
  by_cases h : ScriptNum.decode a = ScriptNum.decode b
  · simp [h, ofBool, ScriptNum.encode_one]
    rfl
  · simp [h, ofBool, ScriptNum.encode_zero]
    rfl

end Semantics

namespace NumOp

open Semantics

theorem exists_pushesExact [Digests] :
    ∀ op : NumOp, op ≠ .numEqualVerify →
      ∃ act, action? op.code = some act ∧ PushesExact act op.arity op.exact
  | add1, _ => ⟨_, rfl, unary_pushesExact fun a ha => by
      rw [toInt_add_of_small (by omega) (by decide)]
      rfl⟩
  | sub1, _ => ⟨_, rfl, unary_pushesExact fun a ha => by
      rw [toInt_sub_of_small (by omega) (by decide)]
      rfl⟩
  | negate, _ => ⟨_, rfl, unary_pushesExact fun a ha => toInt_neg_of_small (by omega)⟩
  | abs, _ => ⟨_, rfl, unary_pushesExact fun a ha => toInt_abs_of_small (by omega)⟩
  | not, _ => ⟨_, rfl, unary_pushesExact fun _ _ => toInt_ofBool_of_iff eq_zero_iff_toInt_eq_zero⟩
  | zeroNotEqual, _ => ⟨_, rfl, unary_pushesExact fun _ _ =>
      toInt_ofBool_not_of_iff eq_zero_iff_toInt_eq_zero⟩
  | add, _ => ⟨_, rfl, binary_pushesExact fun a b ha hb => toInt_add_of_small (by omega) (by omega)⟩
  | sub, _ => ⟨_, rfl, binary_pushesExact fun a b ha hb => toInt_sub_of_small (by omega) (by omega)⟩
  | boolAnd, _ => ⟨_, rfl, binary_pushesExact fun _ _ _ _ => toInt_ofBool_of_iff
      (and_congr (not_congr eq_zero_iff_toInt_eq_zero) (not_congr eq_zero_iff_toInt_eq_zero))⟩
  | boolOr, _ => ⟨_, rfl, binary_pushesExact fun _ _ _ _ => toInt_ofBool_of_iff
      (or_congr (not_congr eq_zero_iff_toInt_eq_zero) (not_congr eq_zero_iff_toInt_eq_zero))⟩
  | numEqual, _ => ⟨_, rfl, binary_pushesExact fun _ _ _ _ => toInt_ofBool_of_iff eq_iff_toInt_eq⟩
  | numNotEqual, _ => ⟨_, rfl, binary_pushesExact fun _ _ _ _ =>
      toInt_ofBool_not_of_iff eq_iff_toInt_eq⟩
  | lessThan, _ => ⟨_, rfl, binary_pushesExact fun _ _ _ _ =>
      toInt_ofBool_of_iff Int64.lt_iff_toInt_lt⟩
  | greaterThan, _ => ⟨_, rfl, binary_pushesExact fun _ _ _ _ =>
      toInt_ofBool_of_iff Int64.lt_iff_toInt_lt⟩
  | lessThanOrEqual, _ => ⟨_, rfl, binary_pushesExact fun _ _ _ _ =>
      toInt_ofBool_of_iff Int64.le_iff_toInt_le⟩
  | greaterThanOrEqual, _ => ⟨_, rfl, binary_pushesExact fun _ _ _ _ =>
      toInt_ofBool_of_iff Int64.le_iff_toInt_le⟩
  | min, _ => ⟨_, rfl, binary_pushesExact fun a b _ _ => toInt_min⟩
  | max, _ => ⟨_, rfl, binary_pushesExact fun a b _ _ => toInt_max⟩
  | within, _ => ⟨_, rfl, within_pushesExact⟩
  | numEqualVerify, h => absurd rfl h

/-- `OP_NUMEQUALVERIFY` computes what `OP_NUMEQUAL` does, then pops that value and goes on
exactly when it is 1. -/
theorem numEqualVerify_exact (m : Machine) :
    (∀ (args rest : List Bytes), m.stack.items = args.reverse ++ rest → args.length = 2 →
      (∀ e ∈ args, e.length ≤ 4) →
      ∃ v : Int64, v.toInt = exact .numEqualVerify (args.map fun e => (ScriptNum.decode e).toInt) ∧
        andVerify (binary fun a b => ofBool (a = b)) m =
          (decide (v = 1), { m with stack := ⟨rest⟩ })) ∧
    ((m.stack.size < 2 ∨ ∃ e ∈ m.stack.items.take 2, 4 < e.length) →
      (andVerify (binary fun a b => ofBool (a = b)) m).1 = false) := by
  obtain ⟨⟨items⟩, alt, z⟩ := m
  refine ⟨fun args rest hitems hlen hshort => ?_, fun h => andVerify_short (Machine.binary_short h)⟩
  obtain ⟨a, b, rfl⟩ := List.length_eq_two.1 hlen
  have ha := hshort a (by simp)
  have hb := hshort b (by simp)
  dsimp only at hitems
  simp only [List.reverse_cons, List.reverse_nil, List.nil_append, List.cons_append] at hitems
  subst hitems
  exact ⟨_, toInt_ofBool_of_iff eq_iff_toInt_eq, numEqualVerify_run ha hb⟩

/-- The numeric opcodes compute over the integers. When the stack holds an opcode's operands
(`args`, in the order they were pushed, so that `b` of `a b` is the top) and each is at most four
bytes, each operand is a number of `[-(2^31 - 1), 2^31 - 1]`, the machine's result `v` is the exact
result with no wrap-around, and the opcode replaces its operands by the encoding of `v` (for
`OP_NUMEQUALVERIFY`, pops them and goes on exactly when `v` is 1). A missing or longer operand
makes it fail. -/
theorem action_exact [Digests] (op : NumOp) (m : Machine) :
    ∃ act, action? op.code = some act ∧
      (∀ (args rest : List Bytes), m.stack.items = args.reverse ++ rest →
        args.length = op.arity → (∀ e ∈ args, e.length ≤ 4) →
        (∀ e ∈ args, -(2 ^ 31 - 1) ≤ (ScriptNum.decode e).toInt ∧
          (ScriptNum.decode e).toInt ≤ 2 ^ 31 - 1) ∧
        ∃ v : Int64, v.toInt = op.exact (args.map fun e => (ScriptNum.decode e).toInt) ∧
          act m = if op = .numEqualVerify then (decide (v = 1), { m with stack := ⟨rest⟩ })
            else (true, { m with stack := ⟨ScriptNum.encode v :: rest⟩ })) ∧
      ((m.stack.size < op.arity ∨ ∃ e ∈ m.stack.items.take op.arity, 4 < e.length) →
        (act m).1 = false) := by
  by_cases hop : op = .numEqualVerify
  · subst hop
    obtain ⟨hrun, hfail⟩ := numEqualVerify_exact m
    refine ⟨_, rfl, fun args rest hitems hlen hshort => ?_, hfail⟩
    refine ⟨fun e he => ScriptNum.toInt_decode_mem (hshort e he), ?_⟩
    simpa using hrun args rest hitems hlen hshort
  · obtain ⟨act, hact, hexact⟩ := exists_pushesExact op hop
    refine ⟨act, hact, fun args rest hitems hlen hshort => ?_, (hexact m).2⟩
    refine ⟨fun e he => ScriptNum.toInt_decode_mem (hshort e he), ?_⟩
    obtain ⟨v, hv, hrun⟩ := (hexact m).1 args rest hitems hlen hshort
    exact ⟨v, hv, by rw [if_neg hop, hrun]⟩

end NumOp

end Bitcoin
