import Bitcoin.Curve.Point
import Bitcoin.Proofs.Field
import Mathlib.Data.List.Prime
import Mathlib.NumberTheory.LucasPrimality

/-! # The field prime and the group order are prime

Both constants are certified by Lucas's test: `p` is prime when some `a` has `a^(p-1) ≡ 1` and
`a^((p-1)/q) ≢ 1` for each prime `q` dividing `p - 1`. A certificate lists, from the smallest up,
each large prime with its witness and the factorization of `p - 1`; the factors are either
certified earlier in the list or small enough to be checked by trial division. The
exponentiations are `Field.pow`, so the kernel checks a certificate in a few hundred
multiplications per entry.
-/

namespace Bitcoin.Primality

/-! ## Trial division -/

def noDivisorUpTo (n : Nat) : Nat → Bool
  | 0 => true
  | d + 1 => (d + 1 < 2 || n % (d + 1) != 0) && noDivisorUpTo n d

/-- Primality by trial division up to the square root. -/
def trialPrime (n : Nat) : Bool :=
  2 ≤ n && noDivisorUpTo n (Nat.sqrt n)

theorem not_dvd_of_noDivisorUpTo {n d m : Nat} (h : noDivisorUpTo n d = true) (hm : 2 ≤ m)
    (hmd : m ≤ d) : ¬m ∣ n := by
  induction d with
  | zero => omega
  | succ d ih =>
      simp only [noDivisorUpTo, Bool.and_eq_true, Bool.or_eq_true, decide_eq_true_eq,
        bne_iff_ne, ne_eq] at h
      rcases Nat.lt_or_ge m (d + 1) with hlt | hge
      · exact ih h.2 (by omega)
      · have hm1 : m = d + 1 := by omega
        subst hm1
        rcases h.1 with hsmall | hndvd
        · omega
        · exact fun hdvd => hndvd (Nat.mod_eq_zero_of_dvd hdvd)

theorem prime_of_trialPrime {n : Nat} (h : trialPrime n = true) : n.Prime := by
  simp only [trialPrime, Bool.and_eq_true, decide_eq_true_eq] at h
  exact Nat.prime_def_le_sqrt.2 ⟨h.1, fun m hm hmd => not_dvd_of_noDivisorUpTo h.2 hm hmd⟩

/-! ## Lucas's test and its certificates -/

/-- One link of a certificate: a number `p`, a witness of order `p - 1` modulo `p`, and the
factorization of `p - 1` as primes with their exponents. -/
structure Link where
  p : Nat
  witness : Nat
  factors : List (Nat × Nat)

namespace Link

/-- Lucas's test for one link, each factor being among the primes `known` or small enough for
trial division. -/
def check (known : List Nat) (l : Link) : Bool :=
  2 ≤ l.p && (l.factors.map fun f => f.1 ^ f.2).prod == l.p - 1 &&
    l.factors.all (fun f => known.contains f.1 || trialPrime f.1) &&
    Field.pow l.witness (l.p - 1) l.p == 1 &&
    l.factors.all (fun f => Field.pow l.witness ((l.p - 1) / f.1) l.p != 1)

theorem prime_of_check {known : List Nat} {l : Link} (hknown : ∀ q ∈ known, q.Prime)
    (h : l.check known = true) : l.p.Prime := by
  simp only [check, Bool.and_eq_true, decide_eq_true_eq, beq_iff_eq, List.all_eq_true,
    Bool.or_eq_true, List.contains_iff_mem, bne_iff_ne, ne_eq] at h
  obtain ⟨⟨⟨⟨h2, hprod⟩, hfactors⟩, hfull⟩, hpart⟩ := h
  have hpos : 0 < l.p := by omega
  have hcast : ∀ e, (l.witness : ZMod l.p) ^ e = 1 ↔ Field.pow l.witness e l.p = 1 := by
    intro e
    rw [← Field.cast_pow, ← Nat.cast_one]
    exact ⟨Field.eq_of_cast_eq (Field.pow_lt _ _ hpos) (by omega), fun h => by rw [h]⟩
  apply lucas_primality l.p (l.witness : ZMod l.p) ((hcast _).2 hfull)
  intro q hq hdvd
  rw [← hprod] at hdvd
  -- a prime dividing the product divides one of the listed prime powers, so it is that prime
  obtain ⟨_, hmem, hqf⟩ := (Prime.dvd_prod_iff hq.prime).1 hdvd
  obtain ⟨f, hf, rfl⟩ := List.mem_map.1 hmem
  have hfprime : f.1.Prime := by
    rcases hfactors f hf with hk | ht
    · exact hknown _ hk
    · exact prime_of_trialPrime ht
  have hq_eq : q = f.1 := (Nat.prime_dvd_prime_iff_eq hq hfprime).1 (hq.dvd_of_dvd_pow hqf)
  subst hq_eq
  rw [ne_eq, hcast]
  exact hpart f hf

end Link

/-- Check links in order, each against the primes certified before it. -/
def chain : List Nat → List Link → Bool
  | _, [] => true
  | known, l :: ls => l.check known && chain (l.p :: known) ls

theorem prime_of_chain {known : List Nat} {ls : List Link} (hknown : ∀ q ∈ known, q.Prime)
    (h : chain known ls = true) : ∀ l ∈ ls, l.p.Prime := by
  induction ls generalizing known with
  | nil => simp
  | cons l ls ih =>
      simp only [chain, Bool.and_eq_true] at h
      have hl := Link.prime_of_check hknown h.1
      intro l' hl'
      rcases List.mem_cons.1 hl' with rfl | hrest
      · exact hl
      · refine ih ?_ h.2 l' hrest
        intro q hq
        rcases List.mem_cons.1 hq with rfl | hq
        · exact hl
        · exact hknown q hq

def fieldPrimeCertificate : List Link :=
  [⟨13331831, 13, [(2, 1), (5, 1), (971, 1), (1373, 1)]⟩,
   ⟨173378833005251801, 6, [(2, 3), (5, 2), (2621, 1), (24809, 1), (13331831, 1)]⟩,
   ⟨22149492674086928081353, 5, [(2, 3), (3, 1), (5323, 1), (173378833005251801, 1)]⟩,
   ⟨132896956044521568488119, 6, [(2, 1), (3, 1), (22149492674086928081353, 1)]⟩,
   ⟨1206781, 10, [(2, 2), (3, 1), (5, 1), (20113, 1)]⟩,
   ⟨7240687, 3, [(2, 1), (3, 1), (1206781, 1)]⟩,
   ⟨107590001, 3, [(2, 4), (5, 4), (7, 1), (29, 1), (53, 1)]⟩,
   ⟨255515944373312847190720520512484175977, 3, [(2, 3), (7, 2), (11, 1), (1627, 1),
     (2657, 1), (4423, 1), (41201, 1), (96557, 1), (7240687, 1), (107590001, 1)]⟩,
   ⟨205115282021455665897114700593932402728804164701536103180137503955397371, 10,
     [(2, 1), (3, 1), (5, 1), (29, 2), (31, 1), (7723, 1), (132896956044521568488119, 1),
      (255515944373312847190720520512484175977, 1)]⟩,
   ⟨fieldPrime, 3, [(2, 1), (3, 1), (7, 1), (13441, 1),
     (205115282021455665897114700593932402728804164701536103180137503955397371, 1)]⟩]

def groupOrderCertificate : List Link :=
  [⟨4681609, 23, [(2, 3), (3, 1), (97, 1), (2011, 1)]⟩,
   ⟨107361793816595537, 3, [(2, 4), (16699, 1), (85831, 1), (4681609, 1)]⟩,
   ⟨44706919, 6, [(2, 1), (3, 1), (797, 1), (9349, 1)]⟩,
   ⟨174723607534414371449, 3, [(2, 3), (17, 1), (59, 1), (4051, 1), (120233, 1),
     (44706919, 1)]⟩,
   ⟨545358713, 5, [(2, 3), (41, 1), (59, 1), (28181, 1)]⟩,
   ⟨1627771, 3, [(2, 1), (3, 1), (5, 1), (29, 1), (1871, 1)]⟩,
   ⟨297159362677, 2, [(2, 2), (3, 2), (11, 1), (461, 1), (1627771, 1)]⟩,
   ⟨29047611873442575647497758179, 2, [(2, 1), (293, 1), (305873, 1), (545358713, 1),
     (297159362677, 1)]⟩,
   ⟨341948486974166000522343609283189, 2, [(2, 2), (3, 3), (109, 1),
     (29047611873442575647497758179, 1)]⟩,
   ⟨groupOrder, 7, [(2, 6), (3, 1), (149, 1), (631, 1), (107361793816595537, 1),
     (174723607534414371449, 1), (341948486974166000522343609283189, 1)]⟩]

theorem fieldPrime_prime : fieldPrime.Prime := by
  have hchain : chain [] fieldPrimeCertificate = true := by decide +kernel
  exact prime_of_chain (by simp) hchain _ (List.mem_of_getLast? rfl)

theorem groupOrder_prime : groupOrder.Prime := by
  have hchain : chain [] groupOrderCertificate = true := by decide +kernel
  exact prime_of_chain (by simp) hchain _ (List.mem_of_getLast? rfl)

end Bitcoin.Primality
