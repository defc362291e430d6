import Bitfrost.Admission

/-!
Which lists of specs make a registry. The loop compares a spec only with the
first one recorded for its instrument; the maps it threads are a summary of
the specs taken so far, and through them it accepts exactly the lists that
are consistent pair by pair. The registry is then a function of the set.
-/

namespace Bitfrost.Registry

open Bitfrost.Lib
open Std (ExtTreeMap)

/-! ## The specification -/

/-- Specs of one instrument describe one contract. -/
def SameTerms (a b : InstrumentSpec) : Prop :=
  a.kind = b.kind ∧ a.tickMicro = b.tickMicro ∧ a.lotQtyE9 = b.lotQtyE9

def symbolKey (spec : InstrumentSpec) : Venue × String := (spec.venue, spec.symbol)

/-- A consistent instrument set. -/
structure ConsistentSpecs (specs : List InstrumentSpec) : Prop where
  acceptable : ∀ spec ∈ specs, Acceptable spec
  distinct : (specs.map symbolKey).Nodup
  terms : ∀ a ∈ specs, ∀ b ∈ specs, a.instrument = b.instrument → SameTerms a b

theorem sameEconomics_stored {a b : InstrumentSpec} :
    SameEconomics (stored a) (stored b) ↔ SameTerms a b := by
  constructor
  · intro h
    exact ⟨h.kind, h.tick, h.lot⟩
  · rintro ⟨hk, ht, hl⟩
    refine ⟨hk, ht, hl, ?_⟩
    rw [stored, stored, ht, hl]

theorem SameTerms.trans {a b c : InstrumentSpec} (h : SameTerms a b) (h' : SameTerms b c) :
    SameTerms a c :=
  ⟨h.1.trans h'.1, h.2.1.trans h'.2.1, h.2.2.trans h'.2.2⟩

theorem SameTerms.symm {a b : InstrumentSpec} (h : SameTerms a b) : SameTerms b a :=
  ⟨h.1.symm, h.2.1.symm, h.2.2.symm⟩

theorem consistentSpecs_concat {specs : List InstrumentSpec} {spec : InstrumentSpec} :
    ConsistentSpecs (specs ++ [spec]) ↔
      ConsistentSpecs specs ∧ Acceptable spec ∧ symbolKey spec ∉ specs.map symbolKey ∧
        ∀ a ∈ specs, a.instrument = spec.instrument → SameTerms a spec := by
  constructor
  · intro h
    have hdistinct := h.distinct
    rw [List.map_append, List.nodup_append] at hdistinct
    obtain ⟨hold, -, hnew⟩ := hdistinct
    refine ⟨⟨fun a ha => h.acceptable a (List.mem_append_left _ ha), hold,
      fun a ha b hb => h.terms a (List.mem_append_left _ ha) b (List.mem_append_left _ hb)⟩,
      h.acceptable spec (by simp), fun hmem => hnew _ hmem (symbolKey spec) (by simp) rfl,
      fun a ha => h.terms a (List.mem_append_left _ ha) spec (by simp)⟩
  · rintro ⟨h, hacc, hnew, hterms⟩
    refine ⟨?_, ?_, ?_⟩
    · intro a ha
      rcases List.mem_append.mp ha with ha | ha
      · exact h.acceptable a ha
      · rw [List.mem_singleton.mp ha]
        exact hacc
    · rw [List.map_append, List.nodup_append]
      refine ⟨h.distinct, List.nodup_singleton _, ?_⟩
      rintro key hkey key' hkey' rfl
      rw [List.map_singleton, List.mem_singleton] at hkey'
      exact hnew (hkey' ▸ hkey)
    · intro a ha b hb hab
      rcases List.mem_append.mp ha with ha | ha <;> rcases List.mem_append.mp hb with hb | hb
      · exact h.terms a ha b hb hab
      · rw [List.mem_singleton.mp hb] at hab ⊢
        exact hterms a ha hab
      · rw [List.mem_singleton.mp ha] at hab ⊢
        exact (hterms b hb hab.symm).symm
      · rw [List.mem_singleton.mp ha, List.mem_singleton.mp hb]
        exact ⟨rfl, rfl, rfl⟩

/-! ## The loop -/

/-- The two maps after the specs `done`. -/
structure Builds (done : List InstrumentSpec) (b : Builder) : Prop where
  bySymbol : ∀ key found, b.bySymbol[key]? = some found ↔
    ∃ spec ∈ done, symbolKey spec = key ∧ found = stored spec
  first : ∀ instrument found, b.byInstrument[instrument]? = some found →
    ∃ spec ∈ done, spec.instrument = instrument ∧ found = stored spec
  recorded : ∀ spec ∈ done, b.byInstrument[spec.instrument]? ≠ none

theorem builds_nil : Builds [] ⟨∅, ∅⟩ := by
  constructor <;> intros <;> simp_all

section Loop

variable {done : List InstrumentSpec} {b b' : Builder} {spec : InstrumentSpec}

theorem Builds.mem_bySymbol (hb : Builds done b) (key : Venue × String) :
    key ∈ b.bySymbol ↔ key ∈ done.map symbolKey := by
  rw [ExtTreeMap.mem_iff_isSome_getElem?, Option.isSome_iff_exists, List.mem_map]
  constructor
  · rintro ⟨found, hfound⟩
    obtain ⟨spec, hspec, hkey, -⟩ := (hb.bySymbol key found).mp hfound
    exact ⟨spec, hspec, hkey⟩
  · rintro ⟨spec, hspec, hkey⟩
    exact ⟨stored spec, (hb.bySymbol key _).mpr ⟨spec, hspec, hkey, rfl⟩⟩

/-- Agreeing with the first recorded spec is agreeing with all of them. -/
theorem Builds.checkInstrument_ok (hb : Builds done b) (hc : ConsistentSpecs done) :
    (∃ m, checkInstrument b.byInstrument (stored spec) = .ok m) ↔
      ∀ a ∈ done, a.instrument = spec.instrument → SameTerms a spec := by
  simp only [checkInstrument_eq_ok]
  constructor
  · rintro ⟨m, ⟨found, hfound, hsame, -⟩ | ⟨hnone, -⟩⟩ a ha hi
    · obtain ⟨first, hfirst, hfi, rfl⟩ := hb.first _ _ hfound
      exact (hc.terms a ha first hfirst (hi.trans hfi.symm)).trans
        (sameEconomics_stored.mp hsame)
    · exact absurd (hi ▸ hnone) (hb.recorded a ha)
  · intro h
    cases hm : b.byInstrument[spec.instrument]? with
    | none => exact ⟨_, .inr ⟨hm, rfl⟩⟩
    | some found =>
      obtain ⟨first, hfirst, hfi, rfl⟩ := hb.first _ _ hm
      exact ⟨_, .inl ⟨_, hm, sameEconomics_stored.mpr (h first hfirst hfi), rfl⟩⟩

theorem Builds.addSpec_ok_iff (hb : Builds done b) (hc : ConsistentSpecs done) :
    (∃ b', addSpec b spec = .ok b') ↔ ConsistentSpecs (done ++ [spec]) := by
  simp only [addSpec_eq_ok]
  rw [consistentSpecs_concat, ← hb.checkInstrument_ok hc, ← hb.mem_bySymbol]
  constructor
  · rintro ⟨b', hacc, hnew, -, hinst⟩
    exact ⟨hc, hacc, hnew, _, hinst⟩
  · rintro ⟨-, hacc, hnew, m, hinst⟩
    exact ⟨⟨_, m⟩, hacc, hnew, rfl, hinst⟩

theorem Builds.addSpec (hb : Builds done b) (h : Registry.addSpec b spec = .ok b') :
    Builds (done ++ [spec]) b' := by
  obtain ⟨-, hnew, hsym, hinst⟩ := addSpec_eq_ok.mp h
  rw [hb.mem_bySymbol] at hnew
  obtain ⟨⟨first, hfirst, -⟩, hkept, hfrom⟩ := checkInstrument_recorded hinst
  refine ⟨?_, ?_, ?_⟩
  · intro key found
    rw [hsym, getElem?_insert_eq]
    simp only [List.mem_append, List.mem_singleton]
    split
    · next hkey =>
      constructor
      · intro hfound
        exact ⟨spec, .inr rfl, hkey.symm, (Option.some.inj hfound).symm⟩
      · rintro ⟨old, hold | rfl, hold', rfl⟩
        · exact absurd (List.mem_map.mpr ⟨old, hold, hold'.trans hkey⟩) hnew
        · rfl
    · next hkey =>
      rw [hb.bySymbol]
      constructor
      · rintro ⟨old, hold, hold', rfl⟩
        exact ⟨old, .inl hold, hold', rfl⟩
      · rintro ⟨old, hold | rfl, hold', rfl⟩
        · exact ⟨old, hold, hold', rfl⟩
        · exact absurd hold'.symm hkey
  · intro instrument found hfound
    rcases hfrom hfound with hfound | ⟨hi, rfl⟩
    · obtain ⟨old, hold, hi, hold'⟩ := hb.first _ _ hfound
      exact ⟨old, List.mem_append_left _ hold, hi, hold'⟩
    · exact ⟨spec, by simp, hi.symm, rfl⟩
  · intro old hold
    rw [Option.ne_none_iff_exists']
    rcases List.mem_append.mp hold with hold | hold
    · obtain ⟨found, hfound⟩ := Option.ne_none_iff_exists'.mp (hb.recorded old hold)
      exact ⟨found, hkept hfound⟩
    · rw [List.mem_singleton.mp hold]
      exact ⟨first, hfirst⟩

end Loop

/-- What the whole loop builds, and of which lists. -/
theorem foldlM_addSpec (specs : List InstrumentSpec) :
    (∀ b, specs.foldlM addSpec ⟨∅, ∅⟩ = .ok b → ConsistentSpecs specs ∧ Builds specs b) ∧
      (ConsistentSpecs specs → ∃ b, specs.foldlM addSpec ⟨∅, ∅⟩ = .ok b) := by
  induction specs using List.reverseRecOn with
  | nil =>
    refine ⟨fun b h => ?_, fun _ => ⟨_, rfl⟩⟩
    cases h
    exact ⟨⟨by simp, List.nodup_nil, by simp⟩, builds_nil⟩
  | append_singleton specs spec ih =>
    obtain ⟨hsound, hcomplete⟩ := ih
    simp only [List.foldlM_append, List.foldlM_cons, List.foldlM_nil, bind_pure, bind_eq_ok]
    constructor
    · rintro b' ⟨b, hb, hstep⟩
      obtain ⟨hc, hbuilds⟩ := hsound b hb
      exact ⟨(hbuilds.addSpec_ok_iff hc).mp ⟨b', hstep⟩, hbuilds.addSpec hstep⟩
    · intro h
      obtain ⟨b, hb⟩ := hcomplete (consistentSpecs_concat.mp h).1
      obtain ⟨hc, hbuilds⟩ := hsound b hb
      obtain ⟨b', hstep⟩ := (hbuilds.addSpec_ok_iff hc).mpr h
      exact ⟨b', b, hb, hstep⟩

/-! ## The registry -/

/-- The registry holds exactly the specs of the list, as stored. -/
def Holds (specs : List InstrumentSpec) (registry : Registry) : Prop :=
  ∀ venue symbol found, InstrumentSource.lookup registry venue symbol = some found ↔
    ∃ spec ∈ specs, spec.venue = venue ∧ spec.symbol = symbol ∧ found = stored spec

theorem tryFromSpecs_exists_iff (specs : List InstrumentSpec) :
    (∃ registry, tryFromSpecs specs = .ok registry) ↔ ConsistentSpecs specs := by
  obtain ⟨hsound, hcomplete⟩ := foldlM_addSpec specs
  unfold tryFromSpecs
  constructor
  · rintro ⟨registry, h⟩
    obtain ⟨b, hb, -⟩ := bind_eq_ok.mp h
    exact (hsound b hb).1
  · intro h
    obtain ⟨b, hb⟩ := hcomplete h
    exact ⟨⟨b.bySymbol⟩, bind_eq_ok.mpr ⟨b, hb, rfl⟩⟩

theorem holds_of_tryFromSpecs {specs : List InstrumentSpec} {registry : Registry}
    (h : tryFromSpecs specs = .ok registry) : Holds specs registry := by
  obtain ⟨b, hb, hok⟩ := bind_eq_ok.mp h
  cases hok
  intro venue symbol found
  refine (((foldlM_addSpec specs).1 b hb).2.bySymbol (venue, symbol) found).trans ?_
  simp only [symbolKey, Prod.mk.injEq, and_assoc]

/-- A registry is determined by what it holds. -/
theorem eq_of_lookup {registry registry' : Registry}
    (h : ∀ venue symbol found, InstrumentSource.lookup registry venue symbol = some found ↔
      InstrumentSource.lookup registry' venue symbol = some found) : registry = registry' := by
  have hmap : registry.bySymbol = registry'.bySymbol := by
    apply ExtTreeMap.ext_getElem?
    rintro ⟨venue, symbol⟩
    exact Option.ext fun found => h venue symbol found
  cases registry
  cases registry'
  exact congrArg Registry.mk hmap

/-- Lists that store the same specs and are consistent together build the same registry. -/
theorem tryFromSpecs_congr {specs specs' : List InstrumentSpec} {registry : Registry}
    (h : tryFromSpecs specs = .ok registry)
    (hcons : ConsistentSpecs specs → ConsistentSpecs specs')
    (hsame : ∀ venue symbol found,
      (∃ spec ∈ specs, spec.venue = venue ∧ spec.symbol = symbol ∧ found = stored spec) ↔
      ∃ spec ∈ specs', spec.venue = venue ∧ spec.symbol = symbol ∧ found = stored spec) :
    tryFromSpecs specs' = .ok registry := by
  obtain ⟨registry', h'⟩ := (tryFromSpecs_exists_iff specs').mpr
    (hcons ((tryFromSpecs_exists_iff specs).mp ⟨registry, h⟩))
  rw [h', eq_of_lookup fun venue symbol found => ((holds_of_tryFromSpecs h') _ _ _).trans
    ((hsame venue symbol found).symm.trans ((holds_of_tryFromSpecs h) _ _ _).symm)]

theorem ConsistentSpecs.perm {specs specs' : List InstrumentSpec} (h : ConsistentSpecs specs)
    (hp : specs.Perm specs') : ConsistentSpecs specs' where
  acceptable spec hspec := h.acceptable spec (hp.mem_iff.mpr hspec)
  distinct := (hp.map symbolKey).nodup_iff.mp h.distinct
  terms a ha b hb := h.terms a (hp.mem_iff.mpr ha) b (hp.mem_iff.mpr hb)

/-- The specs with other scales supplied. -/
def rescaled (scale : InstrumentSpec → I128) (specs : List InstrumentSpec) :
    List InstrumentSpec :=
  specs.map fun spec => { spec with microPerTickLot := scale spec }

theorem ConsistentSpecs.rescaled {specs : List InstrumentSpec} (h : ConsistentSpecs specs)
    (scale : InstrumentSpec → I128) : ConsistentSpecs (rescaled scale specs) := by
  refine ⟨?_, ?_, ?_⟩
  · intro spec hspec
    obtain ⟨old, hold, rfl⟩ := List.mem_map.mp hspec
    have ha := h.acceptable old hold
    exact ⟨ha.tick_pos, ha.lot_pos, ha.shaped, ha.fits, ha.whole⟩
  · rw [Registry.rescaled, List.map_map]
    exact h.distinct
  · intro a ha b hb
    obtain ⟨old, hold, rfl⟩ := List.mem_map.mp ha
    obtain ⟨old', hold', rfl⟩ := List.mem_map.mp hb
    exact h.terms old hold old' hold'

/-! ## The guards behind it -/

theorem resolveSpec_of_wellFormed {registry : Registry} (hw : registry.WellFormed)
    (venue : Venue) (symbol : String) :
    resolveSpec registry venue symbol =
      okOr (InstrumentSource.lookup registry venue symbol) (.unknownSymbol symbol) := by
  unfold resolveSpec
  cases hl : InstrumentSource.lookup registry venue symbol with
  | none => rfl
  | some spec =>
    obtain ⟨hv, -, hs⟩ := hw.named hl
    have hvenue : rejectIf (spec.venue ≠ venue) (RejectReason.unknownSymbol symbol) = .ok () :=
      rejectIf_eq_ok.mpr (not_not.mpr hv)
    have hguard : rejectIf (spec.tickMicro ≤ 0 ∨ spec.lotQtyE9 ≤ 0 ∨ spec.microPerTickLot ≤ 0)
        (RejectReason.invalidFill symbol) = .ok () := by
      rw [rejectIf_eq_ok, not_or, not_or, not_le, not_le, not_le]
      exact ⟨SInt.toInt_pos.mp hs.tick_pos, SInt.toInt_pos.mp hs.lot_pos,
        SInt.toInt_pos.mp hs.scale_pos⟩
    show (rejectIf _ _ >>= fun _ => rejectIf _ _ >>= fun _ => Except.ok spec) = Except.ok spec
    rw [hvenue, hguard]
    rfl

/-- On a sound spec the keeper fails a fill for what the fill says only. -/
theorem validateFill_error {spec : InstrumentSpec} (hs : Sound spec) {fill : Fill}
    {reason : RejectReason} (h : PositionKeeper.validateFill fill spec = .error reason) :
    (fill.venue ≠ spec.venue ∨ fill.kind ≠ spec.kind ∨ fill.instrument ≠ spec.instrument) ∧
        reason = .invalidFill fill.symbol ∨
      (fill.price ≤ 0 ∨ fill.qty ≤ 0 ∨ fill.fee < 0) ∧ reason = .invalidFill fill.eventId ∨
      spec.kind = .binary ∧ reason = .priceOutOfRange fill.symbol fill.price := by
  simp only [PositionKeeper.validateFill, bind_eq_error, rejectIf_eq_error, rejectIf_eq_ok] at h
  rcases h with ⟨hmatch, rfl⟩ | ⟨_, -, ⟨hproper, rfl⟩ | ⟨_, -, ⟨hguard, -⟩ | ⟨_, -, hbin⟩⟩⟩
  · exact .inl ⟨hmatch, rfl⟩
  · exact .inr (.inl ⟨hproper, rfl⟩)
  · rw [← not_lt, ← not_lt, ← not_lt] at hguard
    exact absurd hguard (by simp [← SInt.toInt_pos, hs.tick_pos, hs.lot_pos, hs.scale_pos])
  · by_cases hk : spec.kind = .binary
    · obtain ⟨hdvd, -⟩ := hs.binary hk
      obtain ⟨full, hfull⟩ := PositionKeeper.exists_full hs hk
      have hmod : (1000000 : I128) % spec.tickMicro = 0 := by
        rw [← SInt.toInt_eq_zero, SInt.toInt_mod_of_nonneg (by decide) (by decide) hs.tick_pos]
        exact Int.emod_eq_zero_of_dvd hdvd
      rw [if_pos hk, rejectIf, if_neg (not_not.mpr hmod), hfull] at hbin
      obtain ⟨-, hreason⟩ := rejectIf_eq_error.mp hbin
      exact .inr (.inr ⟨hk, hreason.symm⟩)
    · rw [if_neg hk] at hbin
      cases hbin

/-- What a registry that was built is, and what it rules out. -/
structure Built (specs : List InstrumentSpec) (registry : Registry) : Prop where
  holds : Holds specs registry
  scale : ∀ venue symbol found, InstrumentSource.lookup registry venue symbol = some found →
    found.microPerTickLot.toInt = found.tickMicro.toInt * found.lotQtyE9.toInt / 1000000000 ∧
      1 ≤ found.microPerTickLot.toInt
  perm : ∀ specs', specs.Perm specs' → tryFromSpecs specs' = .ok registry
  rescaled : ∀ scale, tryFromSpecs (rescaled scale specs) = .ok registry
  disjoint : ∀ venue venue' symbol symbol' found found',
    InstrumentSource.lookup registry venue symbol = some found →
    InstrumentSource.lookup registry venue' symbol' = some found' →
    found.instrument = found'.instrument → venue = venue'
  resolved : ∀ venue symbol, resolveSpec registry venue symbol =
    okOr (InstrumentSource.lookup registry venue symbol) (.unknownSymbol symbol)
  validated : ∀ venue symbol found, InstrumentSource.lookup registry venue symbol = some found →
    ∀ fill reason, PositionKeeper.validateFill fill found = .error reason →
      (fill.venue ≠ found.venue ∨ fill.kind ≠ found.kind ∨ fill.instrument ≠ found.instrument) ∧
          reason = .invalidFill fill.symbol ∨
        (fill.price ≤ 0 ∨ fill.qty ≤ 0 ∨ fill.fee < 0) ∧ reason = .invalidFill fill.eventId ∨
        found.kind = .binary ∧ reason = .priceOutOfRange fill.symbol fill.price

theorem built_of_tryFromSpecs {specs : List InstrumentSpec} {registry : Registry}
    (h : tryFromSpecs specs = .ok registry) : Built specs registry := by
  have hw := wellFormed_of_tryFromSpecs h
  have hcons := (tryFromSpecs_exists_iff specs).mp ⟨registry, h⟩
  refine ⟨holds_of_tryFromSpecs h, ?_, ?_, ?_, ?_, resolveSpec_of_wellFormed hw, ?_⟩
  · intro venue symbol found hfound
    obtain ⟨spec, hspec, -, -, rfl⟩ := (holds_of_tryFromSpecs h venue symbol found).mp hfound
    exact (hcons.acceptable spec hspec).scale
  · intro specs' hp
    refine tryFromSpecs_congr h (fun hc => hc.perm hp) fun venue symbol found => ?_
    simp only [hp.mem_iff]
  · intro scale
    refine tryFromSpecs_congr h (fun hc => hc.rescaled scale) fun venue symbol found => ?_
    simp only [Registry.rescaled, List.mem_map, exists_exists_and_eq_and]
    rfl
  · intro venue venue' symbol symbol' found found' hfound hfound'
    exact hw.venue_eq hfound hfound'
  · intro venue symbol found hfound fill reason
    exact validateFill_error (hw.named hfound).2.2

/-- Construction accepts exactly the consistent instrument sets, and what it builds depends on
the set alone. -/
theorem try_from_specs_exact (specs : List InstrumentSpec) :
    ((∃ registry, tryFromSpecs specs = .ok registry) ↔ ConsistentSpecs specs) ∧
      ∀ registry, tryFromSpecs specs = .ok registry → Built specs registry :=
  ⟨tryFromSpecs_exists_iff specs, fun _ => built_of_tryFromSpecs⟩

theorem try_from_specs_exact_standard :
    ConsistentSpecs standardSpecs ∧ Built standardSpecs standard :=
  ⟨(try_from_specs_exact standardSpecs).1.mp ⟨standard, tryFromSpecs_standard⟩,
    (try_from_specs_exact standardSpecs).2 standard tryFromSpecs_standard⟩

end Bitfrost.Registry
