import BarrelAsm.Text.Basic

/-! The assembly listing. -/
namespace BarrelAsm

/-- A line of the listing; line 0 marks a place that is not filled in. -/
structure ListingEntry where
  line : Int := 0
  /-- An address, register or data location; negative if there is none. -/
  location : Int := 0
  payload : Text := []
  text : Text := []
deriving DecidableEq, Repr, Inhabited

def ListingEntry.unset : ListingEntry := {}

/-- Location in 8 columns, payload in 12 and the text; even lines are filled with spaces and odd
ones with dots. -/
def ListingEntry.render (e : ListingEntry) : Text :=
  let fill : UInt8 := if e.line % 2 = 0 then 32 else 46
  let location := if e.location < 0 then [] else Text.hex16 e.location
  Text.padRight fill 8 location ++ Text.padRight fill 12 e.payload ++ 32 :: e.text

/-- Entries at the position of their source line; inserted ones push later lines down. -/
structure Listing where
  entries : Array ListingEntry := #[]
  offset : Nat := 0
deriving DecidableEq, Repr

namespace Listing

-- An entry takes 48 bytes of the 48-bit address space.
def capacity : Nat := 0x1000000000000 / 48

def blank? (lines : Int) : Option Listing :=
  if 0 ≤ lines ∧ lines ≤ capacity then some ⟨Array.replicate lines.toNat .unset, 0⟩ else none

def position? (l : Listing) (line : Int) : Option Nat :=
  let n := line - 1 + l.offset
  if 0 ≤ n ∧ n < capacity then some n.toNat else none

def reserve (entries : Array ListingEntry) (n : Nat) : Array ListingEntry :=
  if n < entries.size then entries else entries ++ Array.replicate (n + 1 - entries.size) .unset

def set (l : Listing) (n : Nat) (e : ListingEntry) : Listing :=
  { l with entries := (reserve l.entries n).setIfInBounds n e }

def insertAt (l : Listing) (n : Nat) (e : ListingEntry) : Listing :=
  ⟨(reserve l.entries n).insertIdxIfInBounds n e, l.offset + 1⟩

/-- Fill in the place of the entry's line, if there can be one. -/
def log? (l : Listing) (e : ListingEntry) : Option Listing :=
  (l.position? e.line).map fun n => l.set n e

def insert? (l : Listing) (e : ListingEntry) : Option Listing :=
  (l.position? e.line).map fun n => l.insertAt n e

def logLine (l : Listing) (line : Nat) (location : Int) (payload text : Text) : Listing :=
  l.set (line - 1 + l.offset) ⟨line, location, payload, text⟩

def insertLine (l : Listing) (line : Nat) (location : Int) (payload text : Text) : Listing :=
  l.insertAt (line - 1 + l.offset) ⟨line, location, payload, text⟩

/-- The lines of the listing, places that are not filled in left out. -/
def lines (l : Listing) : List Text :=
  (l.entries.toList.filter (·.line != 0)).map ListingEntry.render

end Listing
end BarrelAsm
