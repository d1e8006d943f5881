import FitsWell.FitsError
import Mathlib.Algebra.BigOperators.Group.Finset.Basic
import Mathlib.Algebra.Order.Field.Basic
import Mathlib.Algebra.Order.Group.Unbundled.Abs

/-!
# The Simple Imaging Polynomial

A prior distortion of the offsets of the first two pixel axes: a polynomial for each, and
perhaps an approximate fit of the inverse, which only starts the solve. Arithmetic is exact.
-/

namespace FitsWell

/-- The most Newton steps an inverse takes. -/
def maxSteps : ℕ := 30

/-- Whether a residual is within the tolerance of its target. -/
def converged {K : Type} [Field K] [LinearOrder K] (residual target : K) : Bool :=
  decide (|residual| ≤ max |target| 1 / 10 ^ 13)

namespace Sip

/-- The highest order: `p` and `q` are one digit each. -/
def maxOrder : ℕ := 9

/-- `Σ c_pq · u^p · v^q` over `p + q ≤ order`, with no term past it. -/
structure Polynomial (K : Type) [Zero K] where
  order : ℕ
  coefficient : ℕ → ℕ → K
  order_le : order ≤ maxOrder
  past : ∀ p q, order < p + q → coefficient p q = 0

namespace Polynomial

variable {K : Type} [Field K] (polynomial : Polynomial K)

def value (u v : K) : K :=
  ∑ p ∈ Finset.range (polynomial.order + 1), ∑ q ∈ Finset.range (polynomial.order + 1 - p),
    polynomial.coefficient p q * u ^ p * v ^ q

/-- `(∂/∂u, ∂/∂v)` of the polynomial. -/
def gradient (u v : K) : K × K :=
  (∑ p ∈ Finset.range (polynomial.order + 1), ∑ q ∈ Finset.range (polynomial.order - p + 1),
      if 0 < p then p * polynomial.coefficient p q * u ^ (p - 1) * v ^ q else 0,
    ∑ p ∈ Finset.range (polynomial.order + 1), ∑ q ∈ Finset.range (polynomial.order - p + 1),
      if 0 < q then q * polynomial.coefficient p q * u ^ p * v ^ (q - 1) else 0)

end Polynomial

end Sip

/-- The polynomials of a description. -/
structure Sip (K : Type) [Zero K] where
  a : Sip.Polynomial K
  b : Sip.Polynomial K
  approximateInverse : Option (Sip.Polynomial K × Sip.Polynomial K)

namespace Sip

variable {K : Type} [Field K] (sip : Sip K)

/-- The distorted offsets of the pixel offsets `(u, v)`. -/
def forward (u v : K) : K × K := (u + sip.a.value u v, v + sip.b.value u v)

/-- Where the solve starts. -/
def start (targetU targetV : K) : K × K :=
  match sip.approximateInverse with
  | some (ap, bp) => (targetU + ap.value targetU targetV, targetV + bp.value targetU targetV)
  | none => (targetU, targetV)

variable [LinearOrder K]

/-- Newton steps from `(u, v)`, `steps` of them at the most. -/
def newton (targetU targetV : K) : ℕ → K × K → Outcome (K × K)
  | steps, (u, v) =>
    let residualU := (sip.forward u v).1 - targetU
    let residualV := (sip.forward u v).2 - targetV
    if converged residualU targetU && converged residualV targetV then
      .ok (u, v)
    else
      match steps with
      | 0 => fail (.wcsNoConvergence (ascii "SIP"))
      | steps + 1 =>
        let j00 := 1 + (sip.a.gradient u v).1
        let j01 := (sip.a.gradient u v).2
        let j10 := (sip.b.gradient u v).1
        let j11 := 1 + (sip.b.gradient u v).2
        let determinant := j00 * j11 - j01 * j10
        if determinant = 0 then
          fail (.wcsNoConvergence (ascii "SIP"))
        else
          newton targetU targetV steps
            (u - (residualU * j11 - residualV * j01) / determinant,
              v - (j00 * residualV - j10 * residualU) / determinant)

/-- The pixel offsets whose distorted offsets are the target. -/
def inverse (targetU targetV : K) : Outcome (K × K) :=
  sip.newton targetU targetV maxSteps (sip.start targetU targetV)

end Sip

end FitsWell
