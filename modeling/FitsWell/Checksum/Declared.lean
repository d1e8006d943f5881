import FitsWell.HeaderModel.Integers

/-!
# Declared checksums

What a header says of its `DATASUM` and `CHECKSUM`, by the one rule that a reader and an editor
share: an empty or all-blank value is unknown, and a `DATASUM` that is no 32-bit unsigned decimal
is invalid.
-/

namespace FitsWell

/-- One checksum keyword, as a header declares it. -/
inductive Declaration
  | absent
  | unknown
  | invalid
  /-- A `DATASUM`'s sum, or `0` for a `CHECKSUM`, whose value only its HDU's sum checks. -/
  | present (sum : ℕ)
  deriving DecidableEq, Repr

/-- A sum that was parsed, or an invalid one. -/
def Declaration.ofParsed : Option ℕ → Declaration
  | some sum => present sum
  | none => invalid

variable {R : Type} [RealWords R]

/-- The sum of a `DATASUM` that is not text. -/
def Declaration.unquoted (value : Value R) : Option ℕ :=
  match value.asInteger with
  | .ok (some sum) => if 0 ≤ sum ∧ sum < 2 ^ 32 then some sum.toNat else none
  | _ => none

/-- `keyword` of `header`: its text, blank-trimmed and parsed by `parse`, or an integer. -/
def Declaration.read (header : Header R) (keyword : Keyword) (parse : Text → Option ℕ) :
    Declaration :=
  match header.value (.keyword keyword) with
  | .ok none => .absent
  | .ok (some (.text text)) =>
    if (trim text).isEmpty then .unknown else .ofParsed (parse (trim text))
  | .ok (some value) =>
    if keyword = Keyword.DATASUM then .ofParsed (Declaration.unquoted value) else .invalid
  | .error _ => .invalid

/-- A header's `DATASUM` and `CHECKSUM`. -/
structure Declared where
  datasum : Declaration
  checksum : Declaration
  deriving DecidableEq, Repr

namespace Declared

def read (header : Header R) : Declared where
  datasum := .read header Keyword.DATASUM parseU32
  checksum := .read header Keyword.CHECKSUM fun _ => some 0

/-- Whether the header holds a `CHECKSUM`, which a write must sign. -/
def hasChecksum (declared : Declared) : Bool := declared.checksum != .absent

/-- The data sum that a header's `DATASUM` declares, when it declares a valid one. -/
def dataSum (declared : Declared) : Option ℕ :=
  match declared.datasum with
  | .present sum => some sum
  | _ => none

end Declared

/-! ## What is declared -/

theorem Declaration.ofParsed_le {parsed : Option ℕ} (h : ∀ sum, parsed = some sum → sum < 2 ^ 32)
    {sum : ℕ} (hsum : Declaration.ofParsed parsed = .present sum) : sum < 2 ^ 32 := by
  cases parsed with
  | none => cases hsum
  | some found => exact Declaration.present.inj hsum ▸ h found rfl

omit [RealWords R] in
theorem parseU32_lt {token : Text} {value : ℕ} (h : parseU32 token = some value) :
    value < 2 ^ 32 := by
  unfold parseU32 at h
  dsimp only at h
  generalize (if token.head? = some 0x2b then token.tail else token) = digits at h
  split at h
  · rename_i hparsed
    exact Option.some.inj h ▸ hparsed.2
  · cases h

/-- A declared sum is a word. -/
theorem Declared.dataSum_lt {header : Header R} {sum : ℕ}
    (h : (Declared.read header).dataSum = some sum) : sum < 2 ^ 32 := by
  unfold dataSum at h
  split at h
  · rename_i found hfound
    obtain rfl := Option.some.inj h
    unfold Declared.read Declaration.read at hfound
    dsimp only at hfound
    split at hfound
    · cases hfound
    · split at hfound
      · cases hfound
      · exact Declaration.ofParsed_le (fun _ => parseU32_lt) hfound
    · rw [if_pos rfl] at hfound
      refine Declaration.ofParsed_le (fun sum hsum => ?_) hfound
      unfold Declaration.unquoted at hsum
      split at hsum
      · split at hsum
        · rename_i hrange
          have := Option.some.inj hsum
          omega
        · cases hsum
      · cases hsum
    · cases hfound
  · cases h

/-- A header that holds no record of a keyword declares none of it. -/
theorem Declaration.read_eq_absent_iff {header : Header R} {keyword : Keyword}
    {parse : Text → Option ℕ} :
    Declaration.read header keyword parse = .absent ↔
      header.value (.keyword keyword) = .ok none := by
  have hparsed : ∀ parsed, Declaration.ofParsed parsed ≠ .absent := fun parsed => by
    cases parsed <;> nofun
  unfold Declaration.read
  constructor
  · intro h
    split at h
    · assumption
    · split at h
      · cases h
      · exact absurd h (hparsed _)
    · split at h
      · exact absurd h (hparsed _)
      · cases h
    · cases h
  · intro h
    rw [h]

theorem Declared.hasChecksum_iff {header : Header R} :
    (Declared.read header).hasChecksum = true ↔
      header.value (.keyword Keyword.CHECKSUM) ≠ .ok none := by
  rw [hasChecksum, bne_iff_ne]
  dsimp only [Declared.read]
  exact not_congr Declaration.read_eq_absent_iff

end FitsWell
