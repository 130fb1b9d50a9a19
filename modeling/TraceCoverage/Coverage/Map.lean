import TraceCoverage.Coverage.Error
import TraceCoverage.Coverage.Flags
import TraceCoverage.Outcome

/-!
# Coverage maps

The flags of every address of one symbol. A map is never empty and never runs past the last
32-bit address, so an offset into it and the address there determine each other.
-/

namespace TraceCoverage

structure CoverageMap where
  low : Address
  /-- The flags of `low`, of the address after it, and so on. -/
  flags : Array Flags
  nonempty : 0 < flags.size
  fits : low.toNat + flags.size ≤ 0x100000000
deriving DecidableEq

namespace CoverageMap

/-! ## Making maps -/

/-- A blank map from `low` to `high`, both included. -/
def ofRange (low high : Address) : Except CoverageError CoverageMap :=
  if h : low ≤ high then
    .ok {
      low
      flags := Array.replicate ((high - low).toNat + 1) Flags.empty
      nonempty := by simp
      fits := by
        have hle : low.toNat ≤ high.toNat := UInt32.le_iff_toNat_le.1 h
        have hlt : high.toNat < 0x100000000 := high.toNat_lt
        rw [Array.size_replicate, UInt32.toNat_sub_of_le _ _ h]
        omega
    }
  else .error (.invalidRange low high)

def ofSize (size : UInt32) : Except CoverageError CoverageMap :=
  if size = 0 then .error (.invalidRange 0 0) else ofRange 0 (size - 1)

/-- The map with changed flags at the same addresses. -/
def mapFlags (m : CoverageMap) (f : Array Flags → Array Flags)
    (h : ∀ flags, (f flags).size = flags.size) : CoverageMap :=
  match m with
  | { low, flags, nonempty, fits } =>
    { low, flags := f flags, nonempty := h flags ▸ nonempty, fits := h flags ▸ fits }

/-! ## Addresses and offsets -/

def size (m : CoverageMap) : Nat := m.flags.size

def address (m : CoverageMap) (i : Nat) : Address := m.low + UInt32.ofNat i

def high (m : CoverageMap) : Address := m.address (m.flags.size - 1)

def contains (m : CoverageMap) (a : Address) : Bool := m.low ≤ a && a ≤ m.high

def offset? (m : CoverageMap) (a : Address) : Option Nat :=
  if m.contains a then some (a - m.low).toNat else none

/-! ## Reading and setting flags -/

/-- The flags at an address; none outside the map. -/
def flagsAt (m : CoverageMap) (a : Address) : Flags :=
  match m.offset? a with
  | some i => m.flags[i]?.getD Flags.empty
  | none => Flags.empty

/-- Adds flags at an address. Outside the map nothing changes. -/
def set (m : CoverageMap) (a : Address) (f : Flags) : CoverageMap :=
  match m.offset? a with
  | some i => m.mapFlags (·.modify i (·.union f)) (by simp)
  | none => m

/-! ## Instruction starts -/

def isStartAt (m : CoverageMap) (i : Nat) : Bool := m.flags[i]?.any Flags.isStart

/-- The first of the `n` numbers from `i` on that passes. -/
def firstFrom (p : Nat → Bool) : (i n : Nat) → Option Nat
  | _, 0 => none
  | i, n + 1 => if p i then some i else firstFrom p (i + 1) n

/-- The first offset at or after `i` where an instruction starts. -/
def startFrom? (m : CoverageMap) (i : Nat) : Option Nat :=
  firstFrom m.isStartAt i (m.flags.size - i)

/-- The first instruction start after an address, which may lie outside the map. -/
def nextStart? (m : CoverageMap) (a : Address) : Option Address :=
  let i? := if a < m.low then some 0 else (m.offset? a).map (· + 1)
  (i?.bind m.startFrom?).map m.address

def starts (m : CoverageMap) : List Address :=
  ((List.range m.flags.size).filter m.isStartAt).map m.address

def startCount (m : CoverageMap) : Nat := m.flags.countP Flags.isStart

def startCountIn (m : CoverageMap) (first last : Address) : Nat :=
  let first := max first m.low
  let last := min last m.high
  if last < first then 0
  else
    (m.flags.extract (first - m.low).toNat ((last - m.low).toNat + 1)).countP Flags.isStart

/-! ## Execution -/

/-- Adds flags at the `n` offsets from `i` on. -/
def raise (f : Flags) : (i n : Nat) → Array Flags → Array Flags
  | _, 0, flags => flags
  | i, n + 1, flags => raise f (i + 1) n (flags.modify i (·.union f))

theorem size_raise (f : Flags) (i n : Nat) (flags : Array Flags) :
    (raise f i n flags).size = flags.size := by
  induction n generalizing i flags with
  | zero => rfl
  | succ n ih => simp [raise, ih]

/-- Marks the bytes from an address up to the next instruction start as executed. -/
def markExecuted (m : CoverageMap) (a : Address) : CoverageMap :=
  match m.offset? a with
  | some i =>
    let stop := (m.startFrom? (i + 1)).getD m.flags.size
    m.mapFlags (raise Flags.executed i (stop - i)) (size_raise _ _ _)
  | none => m

/-! ## Merging -/

/-- Adds the flags of another map, offset by offset, as far as both maps reach. -/
def merge (m other : CoverageMap) : CoverageMap :=
  m.mapFlags (·.mapIdx fun i f => (other.flags[i]?).elim f f.union) (by simp)

/-- Maps of different sizes merge their common prefix only. -/
def mergeWarnings (m other : CoverageMap) : List Warning :=
  if m.size = other.size then [] else [.sizeMismatch m.size other.size]

end CoverageMap

end TraceCoverage
