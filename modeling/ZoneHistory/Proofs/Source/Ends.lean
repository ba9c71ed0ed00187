import ZoneHistory.Proofs.Checks
import ZoneHistory.Proofs.Source.Documents
import ZoneHistory.Proofs.Source.Rounding
import ZoneHistory.Proofs.Table.Loading
import ZoneHistory.Proofs.Zone.Showing

/-!
# What the end of a line means

A line gives the date and the time at which it ends, on a clock that keeps the
offsets of that same line. In the zone that is made of the lines, the regime of
the next line starts when that clock gets there (`Until.Separates.start`): right
before, the wall clock still shows the time given, less a millisecond, and from
then on it keeps the new offset.

Both the offsets and the starts of the regimes come out of one walk over the
lines (`ZoneBlock.toRegime_of_regimesFrom`). `ZoneBlock.Describes` collects what
the lines say about the zone, and `Load.ofSource_describes` holds it against every
zone of a table that was loaded from source text.
-/

namespace ZoneHistory

namespace Source

open Calendar

/-- The offsets of a regime are the amounts of a line, in whole minutes. -/
structure Entry.Gives (e : Entry) (g : Regime) : Prop where
  standard : e.standard.RoundsTo g.standard
  saving : Option.Rel Amount.RoundsTo e.saving g.saving

/-! ## Ends -/

/-- What a clock that keeps the offsets of a regime shows at an instant, in milliseconds from
1970-01-01T00:00 on that clock. -/
def Clock.shown (g : Regime) (t : Instant) : Clock → Int
  | .wall => t.ms + g.total.ms
  | .standard => t.ms + g.standard.ms
  | .universal => t.ms

theorem Clock.shown_eq (c : Clock) (g : Regime) (t : Instant) :
    c.shown g t = t.ms + (ClockTime.Clock.ahead g.standard g.saving c).ms := by
  cases c with
  | wall => rfl
  | standard => rfl
  | universal => exact (Int.add_zero t.ms).symm

namespace Until

/-- What the clock of the end shows then, in milliseconds. -/
def clockMs (u : Until) : Int :=
  u.dayNumber * msPerDay + u.time.amount.seconds * msPerSecond

/-- One regime of a zone lasts up to an end and the next one starts there. -/
structure Separates (u : Until) (z : Zone) (before after : Regime) : Prop where
  /-- The clock of the end keeps the offsets of the regime that ends. -/
  start : u.time.clock.shown before after.start = u.clockMs
  /-- A millisecond before, the wall clock still is ahead of the clock of the end by what it was
  in the regime that ends. -/
  shownBefore : Instant.Valid ⟨after.start.ms - 1⟩ →
    ∃ r, z.toReading ⟨after.start.ms - 1⟩ = .ok r ∧
      match u.time.clock with
      | .wall => r.wallMs = u.clockMs - 1
      | .standard => r.wallMs = u.clockMs - 1 + before.savingOrZero.ms
      | .universal => r.wallMs = u.clockMs - 1 + before.total.ms
  shownAfter : z.offsetAt after.start = after.total ∧
    ∃ r, z.toReading after.start = .ok r ∧ r.wallMs = after.start.ms + after.total.ms

theorem shown_of_ms {u : Until} {start : Instant} {g : Regime}
    (h : start.ms = u.ms g.standard g.saving) : u.time.clock.shown g start = u.clockMs := by
  rw [Clock.shown_eq, h, ms, ClockTime.universalMs, clockMs]
  omega

/-- Where one regime follows another, the start of the later one decides what the clock shows on
either side. -/
theorem separates_of_start {u : Until} {z : Zone} (hz : z.WellFormed) {i : Nat}
    {before after : Regime} (hbefore : z.regimes[i]? = some before)
    (hafter : z.regimes[i + 1]? = some after)
    (hstart : after.start.ms = u.ms before.standard before.saving) :
    u.Separates z before after := by
  have hclock := shown_of_ms hstart
  have hvalid : after.start.Valid :=
    hz.start_valid (List.mem_of_getElem? (by simpa [Zone.regimes] using hafter))
  have hoffset : z.offsetAt after.start = after.total :=
    congrArg Regime.total (Zone.regimeAt_start hz hafter)
  refine ⟨hclock, fun hlast => ⟨_, if_pos hlast, ?_⟩, hoffset, _, if_pos hvalid, ?_⟩
  · have hshown : (z.readingAt ⟨after.start.ms - 1⟩).wallMs =
        after.start.ms - 1 + before.total.ms := by
      rw [Zone.wallMs_readingAt hz hlast, Zone.offsetAt,
        Zone.regimeAt_before_start hz hbefore hafter]
    have htotal : before.total.ms = before.standard.ms + before.savingOrZero.ms :=
      Int.add_mul _ _ _
    rw [hshown]
    -- the clocks differ by the offsets that the clock of the end leaves out
    cases hc : u.time.clock <;> rw [hc, Clock.shown] at hclock <;> dsimp only <;> omega
  · rw [Zone.wallMs_readingAt hz hvalid, hoffset]

end Until

/-! ## The regimes of a zone -/

namespace Entry

theorem toRegime_eq_ok_iff {e : Entry} {start : Instant} {g : Regime} :
    e.toRegime start = .ok g ↔
      g = ⟨start, e.standardOffset, e.savingOffset, e.abbreviation⟩ ∧ g.WellFormed :=
  Regime.make_eq_ok_iff

theorem WellFormed.gives_of_toRegime {e : Entry} (he : e.WellFormed) {start : Instant}
    {g : Regime} (h : e.toRegime start = .ok g) : e.Gives g := by
  obtain ⟨rfl, -⟩ := toRegime_eq_ok_iff.mp h
  refine ⟨he.standard.roundsTo_offset, ?_⟩
  show Option.Rel _ _ (e.saving.map _)
  cases hsaving : e.saving with
  | none => exact .none
  | some a => exact .some (he.saving a hsaving).roundsTo_offset

end Entry

namespace ZoneBlock

theorem regimesFrom_cons_eq_ok_iff {start : Instant} {e : Entry} {es : List Entry}
    {gs : List Regime} :
    regimesFrom start (e :: es) = .ok gs ↔
      ∃ g, e.toRegime start = .ok g ∧
        ∃ later, regimesFrom (e.endOr start) es = .ok later ∧ g :: later = gs := by
  refine bind_eq_ok_iff.trans (exists_congr fun g => and_congr_right fun _ => ?_)
  refine bind_eq_ok_iff.trans (exists_congr fun later => and_congr_right fun _ => ?_)
  exact ⟨Except.ok.inj, congrArg Except.ok⟩

theorem length_of_regimesFrom : ∀ {es : List Entry} {start : Instant} {gs : List Regime},
    regimesFrom start es = .ok gs → gs.length = es.length
  | [], _, _, h => by cases h; rfl
  | e :: es, _, _, h => by
      obtain ⟨g, -, later, hlater, rfl⟩ := regimesFrom_cons_eq_ok_iff.mp h
      rw [List.length_cons, List.length_cons, length_of_regimesFrom hlater]

theorem start_of_regimesFrom {es : List Entry} {start : Instant} {gs : List Regime}
    (h : regimesFrom start es = .ok gs) {g : Regime} (hg : gs[0]? = some g) : g.start = start := by
  cases es with
  | nil => cases h; cases hg
  | cons e es =>
      obtain ⟨g', hregime, later, -, rfl⟩ := regimesFrom_cons_eq_ok_iff.mp h
      obtain rfl := Option.some.inj hg
      exact congrArg Regime.start (Entry.toRegime_eq_ok_iff.mp hregime).1

/-- Each regime is made from the entry at its place, and the next one starts where that entry
ends. -/
theorem toRegime_of_regimesFrom {e : Entry} {g : Regime} :
    ∀ {es : List Entry} {start : Instant} {gs : List Regime}, regimesFrom start es = .ok gs →
      ∀ {i : Nat}, es[i]? = some e → gs[i]? = some g →
        ∃ t, e.toRegime t = .ok g ∧
          ∀ next, gs[i + 1]? = some next → next.start = e.endOr t
  | [], _, _, _, _, he, _ => by cases he
  | e' :: es, start, gs, h, i, he, hg => by
      obtain ⟨g', hregime, later, hlater, rfl⟩ := regimesFrom_cons_eq_ok_iff.mp h
      cases i with
      | zero =>
          -- the entries that are left start where this one ends
          obtain rfl := Option.some.inj he
          obtain rfl := Option.some.inj hg
          exact ⟨start, hregime, fun next hnext => start_of_regimesFrom hlater hnext⟩
      | succ i => exact toRegime_of_regimesFrom hlater he hg

theorem toZone_eq_ok_iff {b : ZoneBlock} {z : Zone} :
    b.toZone = .ok z ↔ ∃ gs, regimesFrom Instant.beginning b.entries = .ok gs ∧
      Zone.make b.identifier gs = .ok z :=
  bind_eq_ok_iff

theorem accepted_of_toZone {b : ZoneBlock} {z : Zone} (h : b.toZone = .ok z) : z.Accepted := by
  obtain ⟨gs, hgs, hz⟩ := toZone_eq_ok_iff.mp h
  refine ⟨_, gs, fun g hg => ?_, hz⟩
  obtain ⟨i, hi, rfl⟩ := List.getElem_of_mem hg
  have hlength := length_of_regimesFrom hgs
  obtain ⟨start, hregime, -⟩ := toRegime_of_regimesFrom hgs
    (List.getElem?_eq_getElem (hlength ▸ hi)) (List.getElem?_eq_getElem hi)
  exact ⟨_, _, _, _, hregime⟩

/-! ## Zones and their lines -/

/-- The zone is what the lines say: each line gives a regime its offsets, and where a line ends,
its regime ends and the next one starts. -/
structure Describes (b : ZoneBlock) (z : Zone) : Prop where
  identifier : z.identifier = b.identifier
  length : z.regimes.length = b.entries.length
  beginning : z.first.start = Instant.beginning
  gives : ∀ (i : Nat) (e : Entry) (g : Regime), b.entries[i]? = some e →
    z.regimes[i]? = some g → e.Gives g
  separates : ∀ (i : Nat) (e : Entry) (before after : Regime), b.entries[i]? = some e →
    z.regimes[i]? = some before → z.regimes[i + 1]? = some after →
      ∃ u, e.ends = some u ∧ u.Separates z before after

theorem WellFormed.describes_of_toZone {b : ZoneBlock} (hb : b.WellFormed) {z : Zone}
    (h : b.toZone = .ok z) : b.Describes z := by
  have hz := Zone.accepted_iff_wellFormed.mp (accepted_of_toZone h)
  obtain ⟨gs, hgs, hmake⟩ := toZone_eq_ok_iff.mp h
  obtain ⟨hidentifier, rfl, -⟩ := Zone.make_eq_ok_iff.mp hmake
  have hlength := length_of_regimesFrom hgs
  refine ⟨hidentifier, hlength, start_of_regimesFrom hgs rfl, ?_, ?_⟩
  · rintro i e g he hg
    obtain ⟨start, hregime, -⟩ := toRegime_of_regimesFrom hgs he hg
    exact (hb.entries e (List.mem_of_getElem? he)).gives_of_toRegime hregime
  · rintro i e before after he hbefore hafter
    obtain ⟨start, hregime, hnext⟩ := toRegime_of_regimesFrom hgs he hbefore
    -- an entry with one after it is not the last, so it has an end
    have hmem : e ∈ b.entries.dropLast := by
      have hi : i + 1 < z.regimes.length := (List.getElem?_eq_some_iff.mp hafter).1
      refine List.mem_of_getElem? (i := i) ?_
      rw [List.getElem?_dropLast, if_pos (by omega), he]
    obtain ⟨u, hu⟩ := Option.ne_none_iff_exists'.mp (hb.terminated.1 e hmem)
    refine ⟨u, hu, Until.separates_of_start hz hbefore hafter ?_⟩
    obtain ⟨rfl, -⟩ := Entry.toRegime_eq_ok_iff.mp hregime
    rw [hnext after hafter, Entry.endOr, hu]

end ZoneBlock

end Source

/-! ## Loaded zones -/

namespace Load

open Source

theorem ofSource_eq_ok_iff {text : String} {l : Load} :
    ofSource text = .ok l ↔ ∃ d, Document.parse text = .ok d ∧ ofDocument d = l := by
  rw [ofSource]
  cases Document.parse text with
  | error e => simp
  | ok d => simp

/-- Every zone record of a source that can be a zone says what the zone is; and the zones of the
loaded table are such zones, to which conversions by name lead. -/
theorem ofSource_describes {text : String} {l : Load} (h : ofSource text = .ok l) :
    ∃ d, Document.parse text = .ok d ∧
      (∀ b ∈ d.zones, ∀ z, b.toZone = .ok z → b.Describes z) ∧
      ∀ z ∈ l.table.zones, (∃ b ∈ d.zones, b.toZone = .ok z) ∧
        ∀ t, l.table.toReading z.identifier t = z.toReading t := by
  obtain ⟨d, hd, rfl⟩ := ofSource_eq_ok_iff.mp h
  obtain ⟨hwf, -⟩ := Document.parse_eq_ok_iff.mp hd
  refine ⟨d, hd, fun b hb z hz => ?_, fun z hz => ⟨?_, fun t => ?_⟩⟩
  · exact (hwf.zones b hb).describes_of_toZone hz
  · obtain ⟨p, hp, hok⟩ := mem_zones_build hz
    obtain ⟨b, hb, rfl⟩ := List.mem_map.mp hp
    exact ⟨b, hb, hok⟩
  · have hbuild : (ofDocument d).table.WellFormed := by
      refine wellFormed_build fun p hp z hz => ?_
      obtain ⟨b, -, rfl⟩ := List.mem_map.mp hp
      exact ZoneBlock.accepted_of_toZone hz
    rw [Table.toReading, Table.zoneNamed, hbuild.zone_identifier hz]
    rfl

/-- New York in 2017. The same moment ends daylight saving time at 2:00 on the wall clock and at
1:00 in standard time. -/
def newYork : String :=
  "Zone America/New_York -5:00 - EST 2017 Mar Sun>=8 2:00\n" ++
  "  -5:00 1:00 EDT 2017 Nov 5 1:00s # fall back\n" ++
  "  -5:00 - EST\n"

theorem ofSource_newYork :
    let z : Zone := ⟨"America/New_York", ⟨Instant.beginning, ⟨-300⟩, none, "EST"⟩,
      [⟨⟨1489302000000⟩, ⟨-300⟩, some ⟨60⟩, "EDT"⟩, ⟨⟨1509861600000⟩, ⟨-300⟩, none, "EST"⟩]⟩
    ofSource newYork = .ok ⟨⟨[z], []⟩, []⟩ ∧
      (∃ b, ZoneBlock.Describes b z) ∧
      ∀ t, Table.toReading ⟨[z], []⟩ "America/New_York" t = z.toReading t := by
  intro z
  have hload : ofSource newYork = .ok ⟨⟨[z], []⟩, []⟩ := by decide +kernel
  obtain ⟨d, -, hdescribes, hzones⟩ := ofSource_describes hload
  obtain ⟨⟨b, hb, hok⟩, hreading⟩ := hzones z List.mem_cons_self
  exact ⟨hload, ⟨b, hdescribes b hb z hok⟩, hreading⟩

end Load

end ZoneHistory
