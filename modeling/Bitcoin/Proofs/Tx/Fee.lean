import Bitcoin.Tx.Verify
import Bitcoin.Proofs.Wire.Decode

/-! # The fee of a transaction

The fee is what the inputs spend less what the outputs create, with the spent outputs looked up
input by input. When every lookup succeeds, the fee is that difference if it fits a signed 64-bit
word, and a serialization error otherwise; when one fails, the first failing input's error is the
result. Amounts are below `2^64`, so with fewer than `2^63` inputs and outputs every running sum,
and their difference, stays within a signed 128-bit word: the sums never wrap.
-/

namespace Bitcoin

section Fold

variable {α ε : Type}

theorem foldlM_add_of_ok {f : Int → α → Except ε Int} {v : α → Int} {l : List α}
    (h : ∀ acc, ∀ x ∈ l, f acc x = .ok (acc + v x)) (acc : Int) :
    l.foldlM f acc = .ok (acc + (l.map v).sum) := by
  induction l generalizing acc with
  | nil =>
      rw [List.foldlM_nil, List.map_nil, List.sum_nil, Int.add_zero]
      rfl
  | cons x l ih =>
      rw [List.foldlM_cons, h acc x List.mem_cons_self, except_ok_bind,
        ih (fun acc y hy => h acc y (List.mem_cons_of_mem x hy)), List.map_cons, List.sum_cons,
        Int.add_assoc]

theorem foldlM_append_cons_of_error {f : Int → α → Except ε Int} {pre post : List α} {x : α}
    {e : ε} (hpre : ∀ acc, ∀ y ∈ pre, ∃ a, f acc y = .ok a) (hx : ∀ acc, f acc x = .error e)
    (acc : Int) : (pre ++ x :: post).foldlM f acc = .error e := by
  induction pre generalizing acc with
  | nil =>
      rw [List.nil_append, List.foldlM_cons, hx]
      rfl
  | cons y pre ih =>
      obtain ⟨a, ha⟩ := hpre acc y List.mem_cons_self
      rw [List.cons_append, List.foldlM_cons, ha, except_ok_bind]
      exact ih (fun acc z hz => hpre acc z (List.mem_cons_of_mem y hz)) a

theorem foldl_add_eq_add_sum (g : α → Int) (l : List α) (acc : Int) :
    l.foldl (fun acc x => acc + g x) acc = acc + (l.map g).sum := by
  induction l generalizing acc with
  | nil => simp
  | cons x l ih => rw [List.foldl_cons, ih, List.map_cons, List.sum_cons, Int.add_assoc]

end Fold

namespace TxOut

def total (outputs : List TxOut) : Int :=
  (outputs.map fun o => (o.value.toNat : Int)).sum

/-- Amounts are 64-bit, so a sum of `n` of them lies in `[0, n·(2^64 - 1)]`. -/
theorem total_bounds (outputs : List TxOut) :
    0 ≤ total outputs ∧ total outputs ≤ outputs.length * (2 ^ 64 - 1) := by
  have hamount : ∀ v ∈ outputs.map fun o => (o.value.toNat : Int), 0 ≤ v ∧ v ≤ 2 ^ 64 - 1 := by
    intro v hv
    obtain ⟨o, -, rfl⟩ := List.mem_map.1 hv
    have := o.value.toNat_lt
    omega
  have hle := List.sum_le_card_nsmul _ (2 ^ 64 - 1) fun v hv => (hamount v hv).2
  rw [List.length_map, nsmul_eq_mul] at hle
  exact ⟨List.sum_nonneg fun v hv => (hamount v hv).1, hle⟩

end TxOut

/-- Whether an integer fits in a signed 128-bit word, `[-2^127, 2^127 - 1]`. -/
def FitsInt128 (v : Int) : Prop := -2 ^ 127 ≤ v ∧ v ≤ 2 ^ 127 - 1

theorem fitsInt128_total {outputs : List TxOut} (h : outputs.length < 2 ^ 63) :
    FitsInt128 (TxOut.total outputs) := by
  obtain ⟨hlo, hhi⟩ := TxOut.total_bounds outputs
  have hlen : (outputs.length : Int) ≤ 2 ^ 63 - 1 := by omega
  constructor <;> nlinarith

theorem fitsInt128_total_sub {spent created : List TxOut} (hs : spent.length < 2 ^ 63)
    (hc : created.length < 2 ^ 63) : FitsInt128 (TxOut.total spent - TxOut.total created) := by
  obtain ⟨hs₀, hs₁⟩ := fitsInt128_total hs
  obtain ⟨hc₀, hc₁⟩ := fitsInt128_total hc
  have := (TxOut.total_bounds spent).1
  have := (TxOut.total_bounds created).1
  constructor <;> omega

namespace Tx

/-- The fee a transaction has when its inputs spend the outputs `prev` gives: what they spend
less what its outputs create. -/
def spentLessCreated (tx : Tx) (prev : TxIn → TxOut) : Int :=
  TxOut.total (tx.inputs.map prev) - TxOut.total tx.outputs

theorem fitsInt64_eq_true_iff (v : Int) : fitsInt64 v = true ↔ -2 ^ 63 ≤ v ∧ v ≤ 2 ^ 63 - 1 := by
  simp only [fitsInt64, Bool.and_eq_true, decide_eq_true_eq]
  omega

theorem inputTotal_of_resolved {tx : Tx} {source : TxSource} {prev : TxIn → TxOut}
    (h : ∀ i ∈ tx.inputs, i.prevOutput source tx.network = .ok (prev i)) :
    tx.inputTotal source = .ok (TxOut.total (tx.inputs.map prev)) := by
  unfold inputTotal
  rw [foldlM_add_of_ok (v := fun i => ((prev i).value.toNat : Int))
    (fun acc i hi => by rw [h i hi]; rfl), Int.zero_add, TxOut.total, List.map_map]
  rfl

theorem inputTotal_of_error {tx : Tx} {source : TxSource} {pre post : List TxIn} {i : TxIn}
    {e : Error} (hinputs : tx.inputs = pre ++ i :: post)
    (hpre : ∀ j ∈ pre, ∃ o, j.prevOutput source tx.network = .ok o)
    (hi : i.prevOutput source tx.network = .error e) : tx.inputTotal source = .error e := by
  unfold inputTotal
  rw [hinputs]
  refine foldlM_append_cons_of_error (fun acc j hj => ?_) (fun acc => by rw [hi]; rfl) 0
  obtain ⟨o, ho⟩ := hpre j hj
  exact ⟨_, by rw [ho]; rfl⟩

theorem fee_of_resolved {tx : Tx} {source : TxSource} {prev : TxIn → TxOut}
    (h : ∀ i ∈ tx.inputs, i.prevOutput source tx.network = .ok (prev i)) :
    tx.fee source =
      if -2 ^ 63 ≤ tx.spentLessCreated prev ∧ tx.spentLessCreated prev ≤ 2 ^ 63 - 1 then
        .ok (tx.spentLessCreated prev)
      else .error (.serialization "fee out of range") := by
  unfold fee
  rw [inputTotal_of_resolved h, except_ok_bind, foldl_add_eq_add_sum, Int.zero_add]
  dsimp only
  have hfee : TxOut.total (tx.inputs.map prev) - (tx.outputs.map fun o => (o.value.toNat : Int)).sum =
      tx.spentLessCreated prev := rfl
  rw [hfee]
  by_cases hfits : -2 ^ 63 ≤ tx.spentLessCreated prev ∧ tx.spentLessCreated prev ≤ 2 ^ 63 - 1
  · rw [if_pos ((fitsInt64_eq_true_iff _).2 hfits), if_pos hfits]
    rfl
  · rw [if_neg (fun h => hfits ((fitsInt64_eq_true_iff _).1 h)), if_neg hfits]
    rfl

/-- The fee, exactly: when every input's spent output is found, it is what the inputs spend less
what the outputs create, if that fits a signed 64-bit word, and a serialization error otherwise;
an input whose spent output is not found, the first in order, gives its error. With fewer than
`2^63` inputs and outputs, every running sum and the difference fit a signed 128-bit word. -/
theorem fee_eq_spent_sub_created (tx : Tx) (source : TxSource) :
    (∀ prev : TxIn → TxOut, (∀ i ∈ tx.inputs, i.prevOutput source tx.network = .ok (prev i)) →
      tx.fee source =
        if -2 ^ 63 ≤ tx.spentLessCreated prev ∧ tx.spentLessCreated prev ≤ 2 ^ 63 - 1 then
          .ok (tx.spentLessCreated prev)
        else .error (.serialization "fee out of range")) ∧
      (∀ pre i post e, tx.inputs = pre ++ i :: post →
        (∀ j ∈ pre, ∃ o, j.prevOutput source tx.network = .ok o) →
        i.prevOutput source tx.network = .error e → tx.fee source = .error e) ∧
      (tx.inputs.length < 2 ^ 63 → tx.outputs.length < 2 ^ 63 →
        ∀ (prev : TxIn → TxOut) (k : Nat),
          FitsInt128 (TxOut.total ((tx.inputs.map prev).take k)) ∧
          FitsInt128 (TxOut.total (tx.outputs.take k)) ∧
          FitsInt128 (tx.spentLessCreated prev)) := by
  refine ⟨fun prev h => fee_of_resolved h, fun pre i post e hinputs hpre hi => ?_,
    fun hin hout prev k => ?_⟩
  · unfold fee
    rw [inputTotal_of_error hinputs hpre hi]
    rfl
  · -- a running sum covers a prefix, no longer than the whole list
    have hin' : (tx.inputs.map prev).length < 2 ^ 63 := by rw [List.length_map]; exact hin
    refine ⟨fitsInt128_total (Nat.lt_of_le_of_lt (List.length_take_le' _ _) hin'),
      fitsInt128_total (Nat.lt_of_le_of_lt (List.length_take_le' _ _) hout),
      fitsInt128_total_sub hin' hout⟩

/-- Two inputs spending 5000 each and one output of 7000 pay a fee of 3000; when the spent
transaction is missing, the lookup's error is the result; and the first running sum fits. -/
theorem fee_eq_spent_sub_created_two_inputs :
    (Tx.mk 1 [⟨FixedBytes.zero 32, 0, [], 0⟩, ⟨FixedBytes.zero 32, 0, [], 0⟩] [⟨7000, []⟩] 0
        .mainnet).fee (fun _ _ => .ok ⟨1, [], [⟨5000, []⟩], 0, .mainnet⟩) = .ok 3000 ∧
      (Tx.mk 1 [⟨FixedBytes.zero 32, 0, [], 0⟩, ⟨FixedBytes.zero 32, 0, [], 0⟩] [⟨7000, []⟩] 0
        .mainnet).fee (fun _ _ => .error (.provider "missing")) = .error (.provider "missing") ∧
      FitsInt128 (TxOut.total ([(⟨5000, []⟩ : TxOut), ⟨5000, []⟩].take 1)) := by
  have hprev : ∀ i ∈ [(⟨FixedBytes.zero 32, 0, [], 0⟩ : TxIn), ⟨FixedBytes.zero 32, 0, [], 0⟩],
      i.prevOutput (fun _ _ => .ok ⟨1, [], [⟨5000, []⟩], 0, .mainnet⟩) .mainnet =
        .ok ⟨5000, []⟩ := by
    intro i hi
    simp only [List.mem_cons, List.not_mem_nil, or_false, or_self] at hi
    subst hi
    rfl
  obtain ⟨hfound, -, hwidth⟩ := fee_eq_spent_sub_created (Tx.mk 1
    [⟨FixedBytes.zero 32, 0, [], 0⟩, ⟨FixedBytes.zero 32, 0, [], 0⟩] [⟨7000, []⟩] 0 .mainnet)
    (fun _ _ => .ok ⟨1, [], [⟨5000, []⟩], 0, .mainnet⟩)
  obtain ⟨-, hmissing, -⟩ := fee_eq_spent_sub_created (Tx.mk 1
    [⟨FixedBytes.zero 32, 0, [], 0⟩, ⟨FixedBytes.zero 32, 0, [], 0⟩] [⟨7000, []⟩] 0 .mainnet)
    (fun _ _ => .error (.provider "missing"))
  refine ⟨?_, hmissing [] _ [⟨FixedBytes.zero 32, 0, [], 0⟩] _ rfl (by simp) rfl,
    (hwidth (by decide) (by decide) (fun _ => ⟨5000, []⟩) 1).1⟩
  rw [hfound (fun _ => ⟨5000, []⟩) hprev, if_pos (by decide)]
  rfl

end Tx

end Bitcoin
