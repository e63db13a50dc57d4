import Mathlib.Algebra.Group.Nat.Defs
import Mathlib.Logic.Function.Basic

namespace AosKernel.Mm

def AVMF_SIGNATURE : Nat := 0xA1322F
def AVMF_VERSION : Nat := 1

-- What every operation on an avmf_region_header_t looks at first.
structure RegionHeader where
  signature : Nat
  version : Nat
  base : Nat
  limit : Nat
  deriving DecidableEq, Repr

def RegionHeader.Rejected (r : RegionHeader) : Prop :=
  r.signature ≠ AVMF_SIGNATURE ∨ r.version ≠ AVMF_VERSION ∨ r.limit < 1 ∨ r.limit ≤ r.base

instance (r : RegionHeader) : Decidable r.Rejected := by
  unfold RegionHeader.Rejected; infer_instance

-- An avmf_range_t in memory. NULL is `none`.
structure RangeNode where
  base : Nat
  size : Nat
  next : Option Nat
  deriving DecidableEq, Repr

-- The free list of a region, and the memory its nodes are in.
structure FreeRegion extends RegionHeader where
  freeList : Option Nat
  freeCount : Nat
  freeListEnd : Option Nat
  ranges : Nat → RangeNode

inductive AvmfHeaderType
  | corrupt
  | cache
  | alloc
  deriving DecidableEq, Repr

-- The memory that a header stands for.
structure Extent where
  virtAddr : Nat
  physAddr : Nat
  size : Nat
  deriving DecidableEq, Repr

-- An avmf_header_t in memory.
structure Header extends Extent where
  signature : Nat
  version : Nat
  type : AvmfHeaderType
  used : Bool
  next : Option Nat
  parent : Option Nat
  deriving DecidableEq, Repr

def Header.Intact (h : Header) : Prop :=
  h.signature = AVMF_SIGNATURE ∧ h.version = AVMF_VERSION

instance (h : Header) : Decidable h.Intact := by unfold Header.Intact; infer_instance

-- A header of the type that has been set up for `extent` and is in no list.
def Header.fresh (type : AvmfHeaderType) (extent : Extent) (used : Bool) : Header :=
  { extent with
    signature := AVMF_SIGNATURE
    version := AVMF_VERSION
    type := type
    used := used
    next := none
    parent := none }

-- The lists of headers that a region has.
inductive ListKind
  | alloc
  | cache
  deriving DecidableEq, Repr

def ListKind.type : ListKind → AvmfHeaderType
  | .alloc => .alloc
  | .cache => .cache

-- The list for headers of a type.
def AvmfHeaderType.kind : AvmfHeaderType → Option ListKind
  | .alloc => some .alloc
  | .cache => some .cache
  | .corrupt => none

theorem kind_type (k : ListKind) : k.type.kind = some k := by cases k <;> rfl

theorem type_injective {j k : ListKind} (hjk : j.type = k.type) : j = k := by
  have hkind := congrArg AvmfHeaderType.kind hjk
  rw [kind_type, kind_type] at hkind
  exact Option.some.inj hkind

theorem type_ne_corrupt (k : ListKind) : k.type ≠ .corrupt := by cases k <;> decide

-- alloc_list, alloc_count and alloc_list_end, or those of the cache.
structure HeaderList where
  list : Option Nat
  count : Nat
  listEnd : Option Nat
  deriving DecidableEq, Repr

-- The lists of headers of a region, and the memory the headers are in.
structure HeaderRegion extends RegionHeader where
  lists : ListKind → HeaderList
  headers : Nat → Header

end AosKernel.Mm
