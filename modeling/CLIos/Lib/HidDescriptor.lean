import Mathlib.Data.List.Basic
import Mathlib.Algebra.Ring.Nat
import Mathlib.Tactic.Common

/-!
# HID report descriptors

A report descriptor is a list of short items.  Global items set the state that
the following input items take their layout from; local items and collections
say what the controls are for and do not matter to the layout.

A report begins with its identifier.  The fields of that identifier follow each
other, lowest bit first; an element outside its logical range is a null value.
-/

namespace Hid

/-- Bytes of a little-endian number. -/
def unsigned : List Nat → Nat
  | [] => 0
  | b :: bs => b + 256 * unsigned bs

def signed (data : List Nat) : Int :=
  if 2 * unsigned data < 256 ^ data.length then unsigned data
  else unsigned data - (256 ^ data.length : Nat)

/-! ## The descriptor -/

structure Item where
  type : Nat
  tag : Nat
  data : List Nat
deriving DecidableEq

/-- The short items of a descriptor of `fuel` bytes at most. -/
def items : Nat → List Nat → Option (List Item)
  | _, [] => some []
  | 0, _ :: _ => none
  | fuel + 1, p :: rest =>
    let n := if p % 4 = 3 then 4 else p % 4
    if rest.length < n then none
    else (items fuel (rest.drop n)).map fun is => ⟨p / 4 % 4, p / 16, rest.take n⟩ :: is

/-- An input item with the global state at it. -/
structure Field where
  reportId : Nat
  size : Nat
  count : Nat
  logicalMin : Int
  logicalMax : Int
  constant : Bool
deriving DecidableEq

/-- The global state, kept as the field that an input item would make. -/
def Field.start : Field := ⟨0, 0, 0, 0, 0, false⟩

/-- A global item. -/
def Field.update (g : Field) (i : Item) : Field :=
  match i.tag with
  | 1 => { g with logicalMin := signed i.data }
  | 2 => { g with logicalMax := signed i.data }
  | 7 => { g with size := unsigned i.data }
  | 8 => { g with reportId := unsigned i.data }
  | 9 => { g with count := unsigned i.data }
  | _ => g

/-- The input fields; type 1 is global, type 0 with tag 8 is input. -/
def inputs : Field → List Item → List Field
  | _, [] => []
  | g, i :: is =>
    if i.type = 1 then inputs (g.update i) is
    else if i.type = 0 ∧ i.tag = 8 then
      { g with constant := decide (unsigned i.data % 2 = 1) } :: inputs g is
    else inputs g is

def parse (descriptor : List Nat) : Option (List Field) :=
  (items descriptor.length descriptor).map (inputs .start)

/-! ## Reports -/

/-- The value of an element, from its bits. -/
def Field.element (f : Field) (raw : Nat) : Option Int :=
  let v : Int := if f.logicalMin < 0 ∧ 2 ^ f.size ≤ 2 * raw then raw - (2 ^ f.size : Nat) else raw
  if f.logicalMin ≤ v ∧ v ≤ f.logicalMax then some v else none

/-- The elements of the fields in a number, from the bit `off` on. -/
def elements (bits : Nat) : Nat → List Field → List (Option Int)
  | _, [] => []
  | off, f :: fs =>
    (if f.constant then []
      else (List.range f.count).map fun j => f.element (bits / 2 ^ (off + f.size * j) % 2 ^ f.size)) ++
    elements bits (off + f.size * f.count) fs

def width : List Field → Nat
  | [] => 0
  | f :: fs => f.size * f.count + width fs

/-- The elements of a report that are not constant. -/
def decode (fs : List Field) : List Nat → Option (List (Option Int))
  | [] => none
  | id :: data =>
    let fs := fs.filter fun f => f.reportId = id
    if width fs = 8 * data.length then some (elements (unsigned data) 0 fs) else none

/-! ## Bits and bytes -/

/-- A byte of a number. -/
theorem unsigned_byte {data : List Nat} (h : ∀ b ∈ data, b < 256) (k : Nat) :
    unsigned data / 2 ^ (8 * k) % 256 = data.getD k 0 := by
  induction data generalizing k with
  | nil => simp [unsigned]
  | cons b bs ih =>
    have hb : b < 256 := h b List.mem_cons_self
    cases k with
    | zero =>
      show (b + 256 * unsigned bs) / 1 % 256 = b
      omega
    | succ k =>
      have hpow : 2 ^ (8 * (k + 1)) = 256 * 2 ^ (8 * k) := by
        rw [Nat.mul_succ, Nat.pow_add, Nat.mul_comm]
      have hdiv : (b + 256 * unsigned bs) / 256 = unsigned bs := by omega
      show (b + 256 * unsigned bs) / 2 ^ (8 * (k + 1)) % 256 = bs.getD k 0
      rw [hpow, ← Nat.div_div_eq_div_mul, hdiv]
      exact ih (fun c hc => h c (List.mem_cons_of_mem _ hc)) k

/-- A bit of the first byte. -/
theorem unsigned_bit (b : Nat) (bs : List Nat) {j : Nat} (hj : j < 8) :
    unsigned (b :: bs) / 2 ^ j % 2 = b / 2 ^ j % 2 := by
  have hpow : 256 = 2 ^ j * 2 * 2 ^ (7 - j) := by
    rw [← Nat.pow_succ, ← Nat.pow_add, show j + 1 + (7 - j) = 8 by omega]
  show (b + 256 * unsigned bs) / 2 ^ j % 2 = _
  rw [hpow, Nat.mul_assoc, Nat.mul_assoc, Nat.add_mul_div_left _ _ (Nat.two_pow_pos j),
    Nat.add_mul_mod_self_left]

/-- One-bit fields at the start of a report. -/
theorem flag_elements {f : Field} (hsize : f.size = 1) (hmin : f.logicalMin = 0)
    (hmax : f.logicalMax = 1) (b : Nat) (bs : List Nat) {n : Nat} (hn : n ≤ 8) :
    ((List.range n).map fun j => f.element (unsigned (b :: bs) / 2 ^ (0 + f.size * j) % 2 ^ f.size)) =
      ((List.range n).map fun j => ((b / 2 ^ j % 2 : Nat) : Int)).map some := by
  rw [List.map_map, List.map_inj_left]
  intro j hj
  have hj := List.mem_range.mp hj
  rw [hsize, Nat.zero_add, Nat.one_mul, Nat.pow_one, unsigned_bit b bs (by omega)]
  unfold Field.element
  rw [hmin, hmax]
  simp only [Int.lt_irrefl, false_and, if_false, Function.comp]
  rw [if_pos (by omega)]

/-- Fields of one byte each. -/
theorem byte_elements {f : Field} (hsize : f.size = 8) {data : List Nat} (h : ∀ b ∈ data, b < 256)
    (k n : Nat) :
    ((List.range n).map fun j =>
        f.element (unsigned data / 2 ^ (8 * k + f.size * j) % 2 ^ f.size)) =
      (List.range n).map fun j => f.element (data.getD (k + j) 0) := by
  rw [List.map_inj_left]
  intro j _
  rw [hsize, ← Nat.mul_add]
  show f.element (unsigned data / 2 ^ (8 * (k + j)) % 256) = _
  rw [unsigned_byte h]

/-- The number with these bits, lowest first. -/
def ofBits : List Int → Int
  | [] => 0
  | b :: bs => b + 2 * ofBits bs

theorem ofBits_range (n m : Nat) :
    ofBits ((List.range n).map fun j => ((m / 2 ^ j % 2 : Nat) : Int)) = (m % 2 ^ n : Nat) := by
  induction n generalizing m with
  | zero =>
    rw [Nat.pow_zero, Nat.mod_one]
    rfl
  | succ n ih =>
    have htail : ∀ j, m / 2 ^ (j + 1) % 2 = m / 2 / 2 ^ j % 2 := by
      intro j
      rw [Nat.pow_succ', Nat.div_div_eq_div_mul]
    rw [List.range_succ_eq_map, List.map_cons, List.map_map, Nat.pow_succ', Nat.mod_mul]
    show ((m / 1 % 2 : Nat) : Int) +
      2 * ofBits ((List.range n).map fun j => ((m / 2 ^ (j + 1) % 2 : Nat) : Int)) = _
    simp only [htail, ih]
    rw [Nat.div_one]
    omega

end Hid
