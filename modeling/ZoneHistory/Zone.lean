import ZoneHistory.Regime

/-!
# Zones

A `Zone` is the offset history of one time zone: a first regime and the regimes
after it, each starting strictly after the one before (`Zone.WellFormed`). The
first regime also covers all time before its start.

`Zone.indexAt` finds the regime in effect at an instant, and `Zone.near` the
regimes in effect at some point of a span.
-/

namespace ZoneHistory

/-- The offset history of a time zone; there is always a first regime. -/
structure Zone where
  identifier : String
  first : Regime
  later : List Regime
  deriving DecidableEq, Repr

namespace Zone

def regimes (z : Zone) : List Regime :=
  z.first :: z.later

/-- All regimes are well formed and each starts strictly after those before it. -/
structure WellFormed (z : Zone) : Prop where
  regimes : ∀ r ∈ z.regimes, r.WellFormed
  ascending : z.regimes.Pairwise fun a b => a.start < b.start

/-- Each regime but the last, with the one that follows it. -/
def transitions (z : Zone) : List (Regime × Regime) :=
  z.regimes.zip z.later

/-- The first index, counted on from `index`, whose regime does not start after `before`, the
regime in front of it. -/
def firstDisorder? (before : Regime) : List Regime → Nat → Option Nat
  | [], _ => none
  | r :: rest, index =>
    if before.start < r.start then firstDisorder? r rest (index + 1) else some index

/-- The zone with the given regimes, which must be there and in strictly ascending order. -/
def make (identifier : String) (regimes : List Regime) : Except ZoneError Zone :=
  match regimes with
  | [] => .error (.malformed identifier .noRegimes)
  | first :: later =>
    match firstDisorder? first later 1 with
    | some index => .error (.malformed identifier (.notAscending index))
    | none => .ok ⟨identifier, first, later⟩

/-- A zone can be made exactly from some regimes in strictly ascending order. -/
theorem make_eq_ok_iff {identifier : String} {regimes : List Regime} {z : Zone} :
    make identifier regimes = .ok z ↔
      z.identifier = identifier ∧ z.regimes = regimes ∧
        firstDisorder? z.first z.later 1 = none := by
  obtain ⟨name, first, later⟩ := z
  cases regimes with
  | nil => simp [make, Zone.regimes]
  | cons r rest =>
    simp only [make, Zone.regimes, List.cons.injEq]
    split
    next index h =>
      refine ⟨nofun, ?_⟩
      rintro ⟨-, ⟨rfl, rfl⟩, h'⟩
      rw [h] at h'
      cases h'
    next h =>
      simp only [Except.ok.injEq, Zone.mk.injEq]
      constructor
      · rintro ⟨rfl, rfl, rfl⟩
        exact ⟨rfl, ⟨rfl, rfl⟩, h⟩
      · rintro ⟨rfl, ⟨rfl, rfl⟩, -⟩
        exact ⟨rfl, rfl, rfl⟩

/-! ## Look-up -/

/-- The index of the regime in effect at an instant. -/
def indexAt (z : Zone) (t : Instant) : Nat :=
  (z.later.takeWhile fun r => decide (r.start ≤ t)).length

theorem indexAt_lt (z : Zone) (t : Instant) : z.indexAt t < z.regimes.length :=
  Nat.lt_succ_of_le (List.takeWhile_prefix _).length_le

def regimeAt (z : Zone) (t : Instant) : Regime :=
  z.regimes.get ⟨z.indexAt t, z.indexAt_lt t⟩

def offsetAt (z : Zone) (t : Instant) : Offset :=
  (z.regimeAt t).total

/-- The regimes in effect at some point from `start` to `finish`, as the index of the first one
and the index after the last one. -/
def near (z : Zone) (start finish : Instant) : Nat × Nat :=
  (z.indexAt start, z.indexAt finish + 1)

/-- The largest distance from UTC, in milliseconds, of the offsets of the zone. -/
def widestMs (z : Zone) : Int :=
  (z.regimes.map fun r => (r.total.ms.natAbs : Int)).foldl max 0

end Zone

end ZoneHistory
