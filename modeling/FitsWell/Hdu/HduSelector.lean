import FitsWell.Hdu.Scan

/-!
# Selecting an HDU

A selector names an HDU by its place in the file, or by its `EXTNAME` whatever the case of its
letters, with its `EXTVER` and `EXTLEVEL` where they are given.
-/

namespace FitsWell

/-- Which HDU a call names. -/
inductive HduSelector
  | index (index : ℕ)
  | extension (name : Text) (version level : Option ℤ)
  deriving DecidableEq, Repr

/-- Whether two texts are one but for the case of letters. -/
def eqIgnoreAsciiCase (one other : Text) : Bool :=
  one.map toAsciiUppercase == other.map toAsciiUppercase

variable {R : Type} [RealWords R]

namespace Hdu

variable (hdu : Hdu R)

def extname : Outcome (Option Text) := hdu.header.getText .EXTNAME

def extver : Outcome ℤ := do
  let found ← hdu.header.getInteger .EXTVER
  .ok (found.getD 1)

def extlevel : Outcome ℤ := do
  let found ← hdu.header.getInteger .EXTLEVEL
  .ok (found.getD 1)

/-- The name that a lookup compares: an `EXTNAME` that is no text names nothing. -/
def ownName : Option Text :=
  match hdu.extname with
  | .ok (some name) => some name
  | .ok none => if hdu.index = 0 then some (ascii "PRIMARY") else none
  | .error _ => none

/-- Whether a number that a selector gives is the HDU's own. -/
def matchesNumber (given : Option ℤ) (own : Outcome ℤ) : Outcome Bool :=
  match given with
  | none => .ok true
  | some number => do
    let found ← own
    .ok (found = number)

/-- Whether a selector names this HDU. -/
def matchesSelector (selector : HduSelector) : Outcome Bool :=
  match selector with
  | .index index => .ok (index = hdu.index)
  | .extension name version level =>
    match hdu.ownName with
    | none => .ok false
    | some own =>
      if eqIgnoreAsciiCase own name then do
        let sameVersion ← matchesNumber version hdu.extver
        if sameVersion then matchesNumber level hdu.extlevel else .ok false
      else
        .ok false

end Hdu

namespace Hdus

/-- The first HDU of a list that a selector names. -/
def find (selector : HduSelector) : List (Hdu R) → Outcome (Option (Hdu R))
  | [] => .ok none
  | hdu :: hdus => do
    let named ← hdu.matchesSelector selector
    if named then .ok (some hdu) else find selector hdus

/-- The HDU that a selector names. -/
def select (hdus : Hdus R) (selector : HduSelector) : Outcome (Hdu R) :=
  match selector with
  | .index index =>
    match hdus.hdus[index]? with
    | some hdu => .ok hdu
    | none =>
      match hdus.defect with
      | some source =>
        if index = hdus.hdus.length then fail (.defectiveHdu index source)
        else fail (.indexOutOfBounds .hdu index hdus.hdus.length)
      | none => fail (.indexOutOfBounds .hdu index hdus.hdus.length)
  | .extension name version level => do
    let found ← find selector hdus.hdus
    match found with
    | some hdu => .ok hdu
    | none => fail (.hduNotFound name version level)

/-- Put an HDU in the place of the one of its index. -/
def replace (hdus : Hdus R) (hdu : Hdu R) : Outcome (Hdus R) :=
  if hdu.index < hdus.hdus.length then
    .ok { hdus with hdus := hdus.hdus.set hdu.index hdu }
  else
    abort .indexOutOfBounds

theorem mem_of_find {selector : HduSelector} {hdus : List (Hdu R)} {hdu : Hdu R}
    (h : find selector hdus = .ok (some hdu)) : hdu ∈ hdus := by
  induction hdus with
  | nil => cases h
  | cons first rest ih =>
    obtain ⟨named, -, h⟩ := Loops.ok_of_bind h
    split at h
    · obtain rfl := Option.some.inj (Except.ok.inj h)
      exact List.mem_cons_self
    · exact List.mem_cons_of_mem first (ih h)

/-- A selected HDU is one of the list. -/
theorem mem_of_select {hdus : Hdus R} {selector : HduSelector} {hdu : Hdu R}
    (h : hdus.select selector = .ok hdu) : hdu ∈ hdus.hdus := by
  unfold select at h
  split at h
  · split at h
    · rename_i found hfound
      obtain rfl := Except.ok.inj h
      exact List.mem_of_getElem? hfound
    · split at h
      · split at h <;> cases h
      · cases h
  · obtain ⟨found, hfound, h⟩ := Loops.ok_of_bind h
    split at h
    · obtain rfl := Except.ok.inj h
      exact mem_of_find hfound
    · cases h

end Hdus

end FitsWell
