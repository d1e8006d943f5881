import FitsWell.Compression.TileGeometry
import FitsWell.ImageModel.Scaling

/-!
# Images to write

A view holds samples as their words. An image is a view with a shape that fixes its count and with a
scaling.
-/

namespace FitsWell

open Bytes

/-! ## Views -/

/-- Samples of a type, that memory holds. -/
structure View where
  bitpix : Bitpix
  samples : List (BitVec (8 * bitpix.elemSize))
  held : samples.length * bitpix.elemSize ≤ isizeMax

namespace View

variable (view : View)

def len : ℕ := view.samples.length

/-- The samples in big-endian order. -/
def encode : Text := view.samples.flatMap fun sample => beBytes view.bitpix.elemSize sample.toNat

theorem len_le : view.len ≤ isizeMax :=
  (Nat.le_mul_of_pos_right _ view.bitpix.elemSize_pos).trans view.held

theorem length_encode : view.encode.length = view.len * view.bitpix.elemSize := by
  rw [Nat.mul_comm]
  exact length_flatMap_width (fun _ => beBytes_length _ _) view.samples

/-- The samples from one on, as many as follow it or so many. -/
def part (start count : ℕ) : View where
  bitpix := view.bitpix
  samples := (view.samples.drop start).take count
  held := by
    refine (Nat.mul_le_mul_right _ ?_).trans view.held
    rw [List.length_take, List.length_drop]
    omega

/-- The samples of a range, which must lie in the view. -/
def slice (start stop : ℕ) : Outcome View :=
  if start ≤ stop ∧ stop ≤ view.len then .ok (view.part start (stop - start))
  else abort .indexOutOfBounds

theorem part_all : view.part 0 view.len = view := by
  unfold part len
  congr 1
  exact List.take_length

/-- The samples of two parts, one after the other. -/
theorem encode_part_add (start first second : ℕ) :
    (view.part start (first + second)).encode =
      (view.part start first).encode ++ (view.part (start + first) second).encode := by
  unfold encode part
  dsimp only
  rw [List.take_add, List.flatMap_append, List.drop_drop]

theorem len_part {start count : ℕ} (h : start + count ≤ view.len) :
    (view.part start count).len = count := by
  unfold len at h
  unfold part len
  dsimp only
  rw [List.length_take, List.length_drop]
  omega

end View

/-! ## Images -/

variable {R : Type}

/-- Refuse a count of samples that is not the shape's. -/
def checkSampleCount (shape : List ℕ) (samples : ℕ) : Outcome ℕ := do
  let expected ← shapeProduct shape
  if samples ≠ expected then fail (.dataSizeMismatch .samples expected samples) else .ok expected

/-- The shape of an image, the type of its samples and their scaling. -/
structure Metadata (R : Type) where
  shape : List ℕ
  bitpix : Bitpix
  scaling : Scaling R

/-- An image: its shape fixes the count of its samples. -/
structure Borrowed (R : Type) where
  shape : List ℕ
  scaling : Scaling R
  samples : View
  counted : shapeProduct shape = .ok samples.len

def Borrowed.metadata (image : Borrowed R) : Metadata R :=
  ⟨image.shape, image.samples.bitpix, image.scaling⟩

end FitsWell
