import XarkCircuit.Lib.Instances
import Mathlib.Data.List.Prime
import Mathlib.NumberTheory.LucasPrimality

/-!
Primality of a large number, from the prime factors of its predecessor.

* `Lucas.prime_of_factors`: an element of order `p - 1` modulo `p` makes `p` prime; that the order is
  no smaller has to be tested only at the prime factors of `p - 1`.
-/

namespace Lucas

/-- **Lucas's test**: `qs` are primes whose powers `es` multiply to `p - 1`, and `a` has order
`p - 1`. -/
theorem prime_of_factors {p : ℕ} (a : ZMod p) (qs es : List ℕ) (hqs : ∀ q ∈ qs, q.Prime)
    (hprod : (List.zipWith (· ^ ·) qs es).prod = p - 1) (hone : a ^ (p - 1) = 1)
    (hne : ∀ q ∈ qs, a ^ ((p - 1) / q) ≠ 1) : p.Prime := by
  refine lucas_primality p a hone fun q hq hdvd => ?_
  -- a prime divisor of the product divides one of the powers, so it is one of the `qs`
  rw [← hprod] at hdvd
  obtain ⟨x, hx, hqx⟩ := (Prime.dvd_prod_iff hq.prime).mp hdvd
  obtain ⟨i, hi, rfl⟩ := List.getElem_of_mem hx
  have hi' : i < qs.length := by
    rw [List.length_zipWith] at hi
    omega
  have hmem : qs[i] ∈ qs := List.getElem_mem hi'
  rw [List.getElem_zipWith] at hqx
  have hqi : q = qs[i] := (Nat.prime_dvd_prime_iff_eq hq (hqs _ hmem)).mp (hq.dvd_of_dvd_pow hqx)
  rw [hqi]
  exact hne _ hmem

end Lucas
