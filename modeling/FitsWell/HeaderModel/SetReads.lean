import FitsWell.HeaderModel.EditEffects
import FitsWell.HeaderModel.TypedLookup
import FitsWell.HeaderModel.ValueRoundTrip

/-!
# What a set leaves to read

A keyword that is set reads as its value, and every other one as it did. Internal metadata is
set so, many records in a row.
-/

namespace FitsWell

variable {R : Type}

/-! ## Integers of any size -/

theorem Decimal.head?_numeral {n : ℕ} (hn : 0 < n) : (Decimal.numeral n).head? ≠ some 0x30 := by
  have hdigits : Nat.digits 10 n ≠ [] := Nat.digits_ne_nil_iff_ne_zero.mpr (by omega)
  have hlast := Nat.getLast_digit_ne_zero 10 (by omega : n ≠ 0)
  have hlt := Nat.digits_lt_base (by decide : 1 < 10) (List.getLast_mem hdigits)
  rw [Decimal.numeral, if_neg (by omega), List.head?_map, List.head?_reverse,
    List.getLast?_eq_some_getLast hdigits, Option.map_some]
  intro hzero
  have hbyte := congrArg UInt8.toNat (Option.some.inj hzero)
  rw [Decimal.digitByte_toNat hlt] at hbyte
  have hcode : (0x30 : UInt8).toNat = 0x30 := rfl
  omega

theorem canonical_of_not_fits {value : ℤ} (h : ¬(-2 ^ 63 ≤ value ∧ value < 2 ^ 63)) :
    (IntegerRepr.decimal (decide (value < 0)) (Decimal.numeral value.natAbs)).Canonical := by
  refine ⟨isDigits_numeral _, Decimal.head?_numeral (Int.natAbs_pos.mpr (by omega)), ?_⟩
  have hsigned : signed (decide (value < 0)) value.natAbs = value := by
    unfold signed
    by_cases hneg : value < 0
    · rw [decide_eq_true hneg, if_pos rfl]
      omega
    · rw [decide_eq_false hneg, if_neg Bool.false_ne_true]
      omega
  rwa [Decimal.value_numeral, hsigned]

/-- An integer as a record holds it. -/
def FitsInteger.ofInt (value : ℤ) : FitsInteger :=
  if h : -2 ^ 63 ≤ value ∧ value < 2 ^ 63 then ⟨.i64 value, h⟩
  else ⟨.decimal (decide (value < 0)) (Decimal.numeral value.natAbs), canonical_of_not_fits h⟩

theorem FitsInteger.toI64_ofInt {value : ℤ} (h : -2 ^ 63 ≤ value ∧ value < 2 ^ 63) :
    (FitsInteger.ofInt value).toI64 = .ok value := by
  rw [FitsInteger.ofInt, dif_pos h]
  rfl

/-- The value of an integer. -/
def Value.ofInt (value : ℤ) : Value R := .integer (.ofInt value)

/-! ## The first record after a change -/

/-- An element set where the search stops is found. -/
theorem find?_set_of_findIdx? {α : Type} {p : α → Bool} {items : List α} {i : ℕ} {item : α}
    (h : items.findIdx? p = some i) (hitem : p item = true) :
    (items.set i item).find? p = some item := by
  induction items generalizing i with
  | nil => cases h
  | cons first items ih =>
    rw [List.findIdx?_cons] at h
    split at h
    · obtain rfl := Option.some.inj h
      rw [List.set_cons_zero, List.find?_cons_of_pos hitem]
    · rename_i hfirst
      obtain ⟨j, hj, rfl⟩ := Option.map_eq_some_iff.mp h
      rw [List.set_cons_succ, List.find?_cons_of_neg hfirst, ih hj]

/-- A search passes an element it is not for, before and after it is set. -/
theorem find?_set_of_neg {α : Type} {p : α → Bool} {items : List α} {i : ℕ} {old item : α}
    (hold : items[i]? = some old) (hpast : p old = false) (hitem : p item = false) :
    (items.set i item).find? p = items.find? p := by
  induction items generalizing i with
  | nil => cases hold
  | cons first items ih =>
    cases i with
    | zero =>
      obtain rfl := Option.some.inj hold
      rw [List.set_cons_zero, List.find?_cons_of_neg (by simp [hitem]),
        List.find?_cons_of_neg (by simp [hpast])]
    | succ i =>
      rw [List.set_cons_succ, List.find?_cons, List.find?_cons, ih hold]

namespace Header

variable {header next : Header R} {keyword other : Keyword}

/-- A header of the same first records reads the same. -/
theorem value_congr {name : RecordName}
    (h : next.records.find? (·.carries name) = header.records.find? (·.carries name)) :
    next.value name = header.value name := by
  rw [value_eq, value_eq, h]

theorem carries_of_keyword {record : Record R} (h : record.keyword = some keyword) :
    record.carries (.keyword keyword) = true := decide_eq_true h

theorem not_carries_of_keyword {record : Record R} (h : record.keyword = some keyword)
    (hne : other ≠ keyword) : record.carries (.keyword other) = false :=
  decide_eq_false fun hsame => hne (Option.some.inj (hsame.symm.trans h))

section Editing

variable [RealText R] {value : Value R}

/-- A keyword that is set reads as its value. -/
theorem value_set (h : header.set (.keyword keyword) value = .ok next) :
    next.value (.keyword keyword) = .ok (some value) := by
  obtain ⟨change, record, hsets, -, -, hfollows⟩ := follows_set h
  rw [value_eq, hfollows.records]
  rcases hsets with ⟨added, hnone, hadded, rfl⟩ | ⟨i, old, replaced, hfirst, hold, hvalue, rfl⟩
  · obtain ⟨_, -, hadded⟩ := Loops.ok_of_bind hadded
    obtain rfl := Except.ok.inj hadded
    have hadds : (Record.valued keyword value none).carries (.keyword keyword) = true :=
      carries_of_keyword rfl
    rw [RecordChange.apply, List.take_length, List.drop_length,
      List.find?_append, List.find?_eq_none.mpr (fun other hother => by simp [hnone other hother]),
      Option.none_or, List.find?_cons, hadds]
    rfl
  · obtain ⟨hi, hcarries, -⟩ := List.findIdx?_eq_some_iff_getElem.mp hfirst
    obtain rfl := Option.some.inj ((List.getElem?_eq_getElem hi).symm.trans hold)
    have hkeyword := (Record.keys_withValue hvalue).1.trans (of_decide_eq_true hcarries)
    rw [RecordChange.apply, find?_set_of_findIdx? hfirst (carries_of_keyword hkeyword)]
    unfold Record.withValue at hvalue
    split at hvalue
    all_goals first
      | (rw [← Except.ok.inj hvalue]; rfl)
      | cases hvalue

/-- Every other keyword reads as it did. -/
theorem value_set_of_ne (h : header.set (.keyword keyword) value = .ok next)
    (hne : other ≠ keyword) : next.value (.keyword other) = header.value (.keyword other) := by
  obtain ⟨change, record, hsets, -, -, hfollows⟩ := follows_set h
  apply value_congr
  rw [hfollows.records]
  rcases hsets with ⟨added, -, hadded, rfl⟩ | ⟨i, old, replaced, hfirst, hold, hvalue, rfl⟩
  · obtain ⟨_, -, hadded⟩ := Loops.ok_of_bind hadded
    obtain rfl := Except.ok.inj hadded
    have hpast : (Record.valued keyword value none).carries (.keyword other) = false :=
      not_carries_of_keyword rfl hne
    rw [RecordChange.apply, List.take_length, List.drop_length, List.find?_append,
      List.find?_cons_of_neg (by simp [hpast]),
      List.find?_nil, Option.or_none]
  · obtain ⟨hi, hcarries, -⟩ := List.findIdx?_eq_some_iff_getElem.mp hfirst
    obtain rfl := Option.some.inj ((List.getElem?_eq_getElem hi).symm.trans hold)
    have hkeyword := of_decide_eq_true hcarries
    exact find?_set_of_neg hold (not_carries_of_keyword hkeyword hne)
      (not_carries_of_keyword ((Record.keys_withValue hvalue).1.trans hkeyword) hne)

/-- A comment leaves what every keyword reads as. -/
theorem value_setComment {text : Text}
    (h : header.setComment (.keyword keyword) text = .ok next) :
    next.value (.keyword other) = header.value (.keyword other) := by
  obtain ⟨i, old, record, hfirst, hold, hcomment, -, hfollows⟩ := follows_setComment h
  obtain ⟨hi, hcarries, -⟩ := List.findIdx?_eq_some_iff_getElem.mp hfirst
  obtain rfl := Option.some.inj ((List.getElem?_eq_getElem hi).symm.trans hold)
  have hkeyword := of_decide_eq_true hcarries
  have hcommented := (Record.keys_withComment hcomment).1.trans hkeyword
  by_cases hsame : other = keyword
  · subst hsame
    have hfound : header.records.find? (·.carries (.keyword other)) = some header.records[i] := by
      rw [List.findIdx?_eq_some_iff_getElem] at hfirst
      rw [List.find?_eq_some_iff_getElem]
      obtain ⟨hi, hcarries, hbefore⟩ := hfirst
      exact ⟨hcarries, i, hi, rfl, fun j hj => by simpa using hbefore j hj⟩
    rw [value_eq, value_eq, hfollows.records, RecordChange.apply, hfound,
      find?_set_of_findIdx? hfirst (carries_of_keyword hcommented)]
    generalize header.records[i] = old at hcomment
    cases old with
    | valued => rw [← Except.ok.inj hcomment]; rfl
    | hierarch => rw [← Except.ok.inj hcomment]; rfl
    | malformed => cases hcomment
    | commentary => cases hcomment
  · apply value_congr
    rw [hfollows.records]
    exact find?_set_of_neg hold (not_carries_of_keyword hkeyword hsame)
      (not_carries_of_keyword hcommented hsame)

/-! ## Internal metadata -/

/-- Set a record of the writer's own, which must not fail. -/
def setInternal (header : Header R) (keyword : Keyword) (value : Value R) : Outcome (Header R) :=
  expectOk (header.set (.keyword keyword) value)

/-- Set the comment of a record of the writer's own, which must not fail. -/
def setCommentInternal (header : Header R) (keyword : Keyword) (text : Text) :
    Outcome (Header R) :=
  expectOk (header.setComment (.keyword keyword) text)

/-- Set records of the writer's own, one after another. -/
def setAll (header : Header R) (entries : List (Keyword × Value R)) : Outcome (Header R) :=
  entries.foldlM (fun header entry => header.setInternal entry.1 entry.2) header

/-- Set a record that has a comment. -/
def setCommented (header : Header R) (keyword : Keyword) (value : Value R) (comment : Text) :
    Outcome (Header R) := do
  let header ← header.setInternal keyword value
  header.setCommentInternal keyword comment

/-- Set the record of a root and the number after `length.2` to `length.1`. -/
def setNumbered (root : Keyword) (header : Header R) (length : ℕ × ℕ) : Outcome (Header R) := do
  let keyword ← root.indexed (length.2 + 1)
  let count ← fitsI64 length.1
  header.setInternal keyword (.ofInt count)

/-- Set the records of a root and the numbers from 1 on, one for each length. -/
def setIndexed (header : Header R) (root : Keyword) (lengths : List ℕ) : Outcome (Header R) :=
  lengths.zipIdx.foldlM (setNumbered root) header

theorem ok_of_expectOk {α : Type} {call : Outcome α} {result : α} (h : expectOk call = .ok result) :
    call = .ok result := by
  unfold expectOk at h
  split at h
  · cases h
  · exact h

/-- Setting `entries` leaves every keyword but theirs, and gives each of theirs its value. -/
theorem value_setAll {entries : List (Keyword × Value R)} (h : header.setAll entries = .ok next) :
    (∀ other, other ∉ entries.map Prod.fst →
      next.value (.keyword other) = header.value (.keyword other)) ∧
    ((entries.map Prod.fst).Nodup → ∀ entry ∈ entries,
      next.value (.keyword entry.1) = .ok (some entry.2)) := by
  induction entries generalizing header with
  | nil =>
    obtain rfl := Except.ok.inj h
    exact ⟨fun _ _ => rfl, fun _ entry hentry => absurd hentry List.not_mem_nil⟩
  | cons first entries ih =>
    rw [setAll, List.foldlM_cons] at h
    obtain ⟨middle, hfirst, hrest⟩ := Loops.ok_of_bind h
    have hset := ok_of_expectOk hfirst
    obtain ⟨hkept, hgiven⟩ := ih hrest
    constructor
    · intro other hother
      rw [List.map_cons, List.mem_cons, not_or] at hother
      rw [hkept other hother.2, value_set_of_ne hset hother.1]
    · intro hnodup entry hentry
      rw [List.map_cons, List.nodup_cons] at hnodup
      rcases List.mem_cons.mp hentry with rfl | hentry
      · rw [hkept _ hnodup.1, value_set hset]
      · exact hgiven hnodup.2 entry hentry

theorem value_setCommented {comment : Text}
    (h : header.setCommented keyword value comment = .ok next) :
    next.value (.keyword keyword) = .ok (some value) ∧
      ∀ other, other ≠ keyword → next.value (.keyword other) = header.value (.keyword other) := by
  obtain ⟨middle, hset, hcomment⟩ := Loops.ok_of_bind h
  have hset := ok_of_expectOk hset
  have hcomment := ok_of_expectOk hcomment
  exact ⟨(value_setComment hcomment).trans (value_set hset),
    fun other hne => (value_setComment hcomment).trans (value_set_of_ne hset hne)⟩

omit [RealText R] in
theorem name_indexed {root : Keyword} {n : ℕ} (h : root.indexed n = .ok keyword) :
    keyword.name = root.name ++ Decimal.numeral n := by
  unfold Keyword.indexed at h
  split at h
  · rename_i found hfound
    obtain rfl := Except.ok.inj h
    unfold Keyword.checked at hfound
    split at hfound
    · rw [← Option.some.inj hfound]
    · cases hfound
  · cases h

omit [RealText R] in
/-- A numbered keyword starts as its root does. -/
theorem head?_indexed {root : Keyword} {n : ℕ} (h : root.indexed n = .ok keyword) :
    keyword.name.head? = root.name.head? := by
  have hroot : root.name ≠ [] := by
    intro hempty
    have hadmitted := root.admitted
    rw [hempty] at hadmitted
    exact absurd hadmitted (by decide)
  rw [name_indexed h, List.head?_append_of_ne_nil _ hroot]

omit [RealText R] in
/-- The numbers of a root give different keywords. -/
theorem indexed_inj {root : Keyword} {m n : ℕ} (hm : root.indexed m = .ok keyword)
    (hn : root.indexed n = .ok keyword) : m = n := by
  have hname := (name_indexed hm).symm.trans (name_indexed hn)
  rw [← Decimal.value_numeral m, List.append_cancel_left hname, Decimal.value_numeral]

theorem set_of_setNumbered {root : Keyword} {length n : ℕ}
    (h : header.setNumbered root (length, n) = .ok next) : ∃ keyword,
    root.indexed (n + 1) = .ok keyword ∧ length < 2 ^ 63 ∧
      header.set (.keyword keyword) (.ofInt length) = .ok next := by
  obtain ⟨keyword, hkeyword, h⟩ := Loops.ok_of_bind h
  obtain ⟨count, hcount, h⟩ := Loops.ok_of_bind h
  unfold fitsI64 at hcount
  split at hcount
  · rename_i hfits
    obtain rfl := Except.ok.inj hcount
    exact ⟨keyword, hkeyword, hfits, ok_of_expectOk h⟩
  · cases hcount

/-- Records numbered from past `start` leave every keyword that is none of theirs, and give each
its length. -/
theorem value_numbered {root : Keyword} {lengths : List ℕ} {start : ℕ}
    (h : (lengths.zipIdx start).foldlM (setNumbered root) header = .ok next) :
    (∀ other, (∀ n, start < n → root.indexed n ≠ .ok other) →
      next.value (.keyword other) = header.value (.keyword other)) ∧
    ∀ (i length : ℕ), lengths[i]? = some length → ∃ keyword,
      root.indexed (start + i + 1) = .ok keyword ∧ length < 2 ^ 63 ∧
      next.value (.keyword keyword) = .ok (some (.ofInt length)) := by
  induction lengths generalizing start header with
  | nil =>
    obtain rfl := Except.ok.inj h
    exact ⟨fun _ _ => rfl, fun i length hlength => by cases hlength⟩
  | cons first lengths ih =>
    rw [List.zipIdx_cons, List.foldlM_cons] at h
    obtain ⟨middle, hfirst, hrest⟩ := Loops.ok_of_bind h
    obtain ⟨keyword, hkeyword, hfits, hset⟩ := set_of_setNumbered hfirst
    obtain ⟨hkept, hgiven⟩ := ih hrest
    constructor
    · intro other hother
      rw [hkept other (fun n hn => hother n (by omega)), value_set_of_ne hset]
      rintro rfl
      exact hother (start + 1) (by omega) hkeyword
    · intro i length hlength
      cases i with
      | zero =>
        obtain rfl := Option.some.inj hlength
        have hpast : ∀ n, start + 1 < n → root.indexed n ≠ .ok keyword := by
          intro n hn hsame
          have := indexed_inj hkeyword hsame
          omega
        exact ⟨keyword, hkeyword, hfits, by rw [hkept keyword hpast, value_set hset]⟩
      | succ i =>
        obtain ⟨own, hown, hvalue⟩ := hgiven i length hlength
        exact ⟨own, by rw [← hown]; congr 1; omega, hvalue⟩

theorem value_setIndexed {root : Keyword} {lengths : List ℕ}
    (h : header.setIndexed root lengths = .ok next) :
    (∀ other, (∀ n, root.indexed n ≠ .ok other) →
      next.value (.keyword other) = header.value (.keyword other)) ∧
    ∀ (i length : ℕ), lengths[i]? = some length → ∃ keyword,
      root.indexed (i + 1) = .ok keyword ∧ length < 2 ^ 63 ∧
      next.value (.keyword keyword) = .ok (some (.ofInt length)) := by
  obtain ⟨hkept, hgiven⟩ := value_numbered h
  refine ⟨fun other hother => hkept other fun n _ => hother n, fun i length hlength => ?_⟩
  obtain ⟨keyword, hkeyword, hvalue⟩ := hgiven i length hlength
  exact ⟨keyword, by rwa [Nat.zero_add] at hkeyword, hvalue⟩

omit [RealText R] in
theorem getText_of_value {text : Text}
    (h : header.value (.keyword keyword) = .ok (some (.text text))) :
    header.getText keyword = .ok (some text) := by
  rw [getText, typedOptional, Loops.bind_ok h]
  rfl

end Editing

/-- An integer that is set reads back. -/
theorem getInteger_of_value [RealWords R] {value : ℤ} (hfits : -2 ^ 63 ≤ value ∧ value < 2 ^ 63)
    (h : header.value (.keyword keyword) = .ok (some (.ofInt value))) :
    header.getInteger keyword = .ok (some value) := by
  have hword : (Value.ofInt value : Value R).asInteger = .ok (some value) := by
    rw [Value.ofInt, Value.asInteger, Loops.bind_ok (FitsInteger.toI64_ofInt hfits)]
  rw [getInteger, typedOptional, Loops.bind_ok h]
  dsimp only
  rw [hword]

end Header

end FitsWell
