import XiFront.Path.View

namespace XiFront.Path

open View

namespace View.Cut

def start : Cut → Nat
  | range start _ => start
  | rangeTo _ => 0

def stop : Cut → Nat
  | range _ stop => stop
  | rangeTo stop => stop

def slice (c : Cut) (l : List α) : List α :=
  l.extract c.start c.stop

/-- The cut leaves something and does not reach beyond the given length. -/
def Fits (c : Cut) (length : Nat) : Prop :=
  c.start < c.stop ∧ c.stop ≤ length

instance (c : Cut) (length : Nat) : Decidable (c.Fits length) :=
  inferInstanceAs (Decidable (_ ∧ _))

/-- The error of a cut in something of the given length. -/
def error (c : Cut) (length : Nat) : RangeError :=
  ⟨c.start, c.stop, length⟩

end View.Cut

/-- What is left of a list after a chain of cuts. -/
def slices (l : List α) (cuts : List Cut) : List α :=
  cuts.foldl (fun l c => c.slice l) l

/-- Each cut of the chain fits what the cuts before it leave. -/
def FitsAll (l : List α) (cuts : List Cut) : Prop :=
  ∀ before c after, cuts = before ++ c :: after → c.Fits (slices l before).length

@[simp] theorem slices_nil (l : List α) : slices l [] = l := rfl

@[simp] theorem slices_cons (l : List α) (c : Cut) (cuts : List Cut) :
    slices l (c :: cuts) = slices (c.slice l) cuts := rfl

theorem fitsAll_nil (l : List α) : FitsAll l [] := by
  intro before c after h
  exact absurd h.symm (List.append_ne_nil_of_right_ne_nil _ (List.cons_ne_nil c after))

theorem fitsAll_cons {l : List α} {c : Cut} {cuts : List Cut} :
    FitsAll l (c :: cuts) ↔ c.Fits l.length ∧ FitsAll (c.slice l) cuts := by
  constructor
  · intro h
    refine ⟨h [] c cuts rfl, fun before d after hcuts => ?_⟩
    exact h (c :: before) d after (by rw [hcuts, List.cons_append])
  · rintro ⟨hfirst, hothers⟩ before d after hcuts
    cases before with
    | nil =>
        obtain ⟨rfl, -⟩ := List.cons.inj hcuts
        exact hfirst
    | cons c' before =>
        obtain ⟨rfl, hrest⟩ := List.cons.inj hcuts
        exact hothers before d after hrest

/-- The first cut of the chain that does not fit, with the error it gives. -/
def StopsWith (l : List α) (cuts : List Cut) (e : RangeError) : Prop :=
  ∃ before c after, cuts = before ++ c :: after ∧ FitsAll l before ∧
    ¬c.Fits (slices l before).length ∧ e = c.error (slices l before).length

theorem not_stopsWith_nil (l : List α) (e : RangeError) : ¬StopsWith l [] e := by
  rintro ⟨before, c, after, h, -⟩
  exact absurd h.symm (List.append_ne_nil_of_right_ne_nil _ (List.cons_ne_nil c after))

theorem stopsWith_cons {l : List α} {c : Cut} {cuts : List Cut} {e : RangeError} :
    StopsWith l (c :: cuts) e ↔
      ¬c.Fits l.length ∧ e = c.error l.length ∨
        c.Fits l.length ∧ StopsWith (c.slice l) cuts e := by
  constructor
  · rintro ⟨before, d, after, hcuts, hfits, hstop, rfl⟩
    cases before with
    | nil =>
        obtain ⟨rfl, -⟩ := List.cons.inj hcuts
        exact .inl ⟨hstop, rfl⟩
    | cons c' before =>
        obtain ⟨rfl, hrest⟩ := List.cons.inj hcuts
        rw [fitsAll_cons] at hfits
        exact .inr ⟨hfits.1, before, d, after, hrest, hfits.2, hstop, rfl⟩
  · rintro (⟨hstop, rfl⟩ | ⟨hfirst, before, d, after, rfl, hfits, hstop, rfl⟩)
    · exact ⟨[], c, cuts, rfl, fitsAll_nil l, hstop, rfl⟩
    · exact ⟨c :: before, d, after, rfl, fitsAll_cons.mpr ⟨hfirst, hfits⟩, hstop, rfl⟩

theorem fitsAll_or_stopsWith (l : List α) (cuts : List Cut) :
    FitsAll l cuts ∨ ∃ e, StopsWith l cuts e := by
  induction cuts generalizing l with
  | nil => exact .inl (fitsAll_nil l)
  | cons c cuts ih =>
      by_cases hfirst : c.Fits l.length
      · obtain hothers | ⟨e, hstop⟩ := ih (c.slice l)
        · exact .inl (fitsAll_cons.mpr ⟨hfirst, hothers⟩)
        · exact .inr ⟨e, stopsWith_cons.mpr (.inr ⟨hfirst, hstop⟩)⟩
      · exact .inr ⟨_, stopsWith_cons.mpr (.inl ⟨hfirst, rfl⟩)⟩

namespace View

theorem cut_eq_range (v : View) (c : Cut) : v.cut c = v.range c.start c.stop := by
  cases c <;> rfl

theorem cut_eq_error {v : View} {c : Cut} (h : ¬c.Fits v.length) :
    v.cut c = .error (c.error v.length) := by
  rw [cut_eq_range]
  exact dif_neg h

theorem cut_eq_ok {v : View} {c : Cut} (h : c.Fits v.length) :
    ∃ w, v.cut c = .ok w ∧ w.owner = v.owner ∧ w.start = v.start + c.start ∧
      w.stop = v.start + c.stop ∧ w.segments = c.slice v.segments := by
  have hcut : v.range c.start c.stop = .ok _ := dif_pos h
  rw [cut_eq_range]
  exact ⟨_, hcut, rfl, rfl, rfl, segments_of_range hcut⟩

theorem follow_cons_of_fits {v w : View} {c : Cut} {cuts : List Cut} (h : v.cut c = .ok w) :
    v.follow (c :: cuts) = w.follow cuts := by
  rw [follow, h]

theorem follow_of_fitsAll {v : View} {cuts : List Cut} (h : FitsAll v.segments cuts) :
    ∃ w, v.follow cuts = .ok w ∧ w.segments = slices v.segments cuts := by
  induction cuts generalizing v with
  | nil => exact ⟨v, rfl, rfl⟩
  | cons c cuts ih =>
      rw [fitsAll_cons, length_segments] at h
      obtain ⟨w, hcut, -, -, -, hsegments⟩ := cut_eq_ok h.1
      rw [follow_cons_of_fits hcut, slices_cons, ← hsegments]
      rw [← hsegments] at h
      exact ih h.2

theorem follow_eq_error_iff {v : View} {cuts : List Cut} {e : RangeError} :
    v.follow cuts = .error e ↔ StopsWith v.segments cuts e := by
  induction cuts generalizing v with
  | nil =>
      constructor
      · exact nofun
      · intro h
        exact absurd h (not_stopsWith_nil _ e)
  | cons c cuts ih =>
      rw [stopsWith_cons, length_segments]
      by_cases hfits : c.Fits v.length
      · obtain ⟨w, hcut, -, -, -, hsegments⟩ := cut_eq_ok hfits
        rw [follow_cons_of_fits hcut, ih, hsegments]
        simp [hfits]
      · rw [follow, cut_eq_error hfits]
        simp [hfits, eq_comm]

theorem follow_append {v w : View} {before : List Cut} (h : v.follow before = .ok w)
    (after : List Cut) : v.follow (before ++ after) = w.follow after := by
  induction before generalizing v with
  | nil =>
      cases Except.ok.inj h
      rfl
  | cons c before ih =>
      by_cases hfits : c.Fits v.length
      · obtain ⟨u, hcut, -⟩ := cut_eq_ok hfits
        rw [follow_cons_of_fits hcut] at h
        rw [List.cons_append, follow_cons_of_fits hcut]
        exact ih h
      · rw [follow, cut_eq_error hfits] at h
        exact nomatch h

def sight (v : View) : Path × Nat × Option Segment × String :=
  (v.segments, v.length, v.last?, v.render)

theorem sight_eq {v : View} {p : Path} (h : v.segments = p) :
    v.sight = (p, p.length, p.getLast?, p.render) := by
  rw [sight, ← length_segments, last?, render, h]

theorem follow_sight {v w : View} (h : v.segments = w.segments) (cuts : List Cut) :
    (v.follow cuts).map sight = (w.follow cuts).map sight := by
  obtain hfits | ⟨e, hstop⟩ := fitsAll_or_stopsWith v.segments cuts
  · obtain ⟨v', hv, hsegments⟩ := follow_of_fitsAll hfits
    rw [h] at hfits hsegments
    obtain ⟨w', hw, hsegments'⟩ := follow_of_fitsAll hfits
    rw [hv, hw]
    exact congrArg Except.ok ((sight_eq hsegments).trans (sight_eq hsegments').symm)
  · have hv : v.follow cuts = .error e := follow_eq_error_iff.mpr hstop
    rw [h] at hstop
    rw [hv, follow_eq_error_iff.mpr hstop]

end View

structure WordView where
  owner : Path
  start : UInt64
  stop : UInt64

namespace WordView

def whole (p : Path) : WordView :=
  ⟨p, 0, .ofNat p.length⟩

def length (w : WordView) : UInt64 :=
  w.stop - w.start

def range (w : WordView) (start stop : UInt64) : Except RangeError WordView :=
  if start < stop ∧ stop ≤ w.length then
    .ok ⟨w.owner, w.start + start, w.start + stop⟩
  else .error ⟨start.toNat, stop.toNat, w.length.toNat⟩

def follow (w : WordView) : List Cut → Except RangeError WordView
  | [] => .ok w
  | c :: cs =>
      match w.range (.ofNat c.start) (.ofNat c.stop) with
      | .ok w' => w'.follow cs
      | .error e => .error e

/-- The words hold the bounds of the window. -/
structure Holds (w : WordView) (v : View) : Prop where
  owner : w.owner = v.owner
  start : w.start.toNat = v.start
  stop : w.stop.toNat = v.stop

end WordView

def View.Cut.InWords (c : Cut) : Prop :=
  c.start < UInt64.size ∧ c.stop < UInt64.size

instance (c : Cut) : Decidable c.InWords :=
  inferInstanceAs (Decidable (_ ∧ _))

namespace WordView

variable {w : WordView} {v : View} {c : Cut}

theorem holds_whole {p : Path} (h : p.length < UInt64.size) : Holds (whole p) p.view where
  owner := rfl
  start := rfl
  stop := UInt64.toNat_ofNat_of_lt' h

theorem Holds.length (h : Holds w v) : w.length.toNat = v.length := by
  have hle : w.start ≤ w.stop := by
    rw [UInt64.le_iff_toNat_le, h.start, h.stop]
    exact v.start_le_stop
  rw [WordView.length, UInt64.toNat_sub_of_le _ _ hle, h.start, h.stop, View.length]

theorem Holds.range_of_fits (h : Holds w v) (howner : v.owner.length < UInt64.size)
    (hfits : c.Fits v.length) :
    ∃ w' v', w.range (.ofNat c.start) (.ofNat c.stop) = .ok w' ∧ v.cut c = .ok v' ∧
      Holds w' v' ∧ v'.owner = v.owner := by
  obtain ⟨v', hcut, howner', hstart', hstop', -⟩ := View.cut_eq_ok hfits
  have hlength : v.start + v.length = v.stop := Nat.add_sub_cancel' v.start_le_stop
  have hinside := v.stop_le_length
  obtain ⟨hproper, hupto⟩ := hfits
  have hwords : c.InWords := ⟨by omega, by omega⟩
  have hstart : (UInt64.ofNat c.start).toNat = c.start := UInt64.toNat_ofNat_of_lt' hwords.1
  have hstop : (UInt64.ofNat c.stop).toNat = c.stop := UInt64.toNat_ofNat_of_lt' hwords.2
  have hallowed : UInt64.ofNat c.start < .ofNat c.stop ∧ UInt64.ofNat c.stop ≤ w.length := by
    rw [UInt64.lt_iff_toNat_lt, UInt64.le_iff_toNat_le, hstart, hstop, h.length]
    exact ⟨hproper, hupto⟩
  have hstartSum : v.start + c.start < UInt64.size := by omega
  have hstopSum : v.start + c.stop < UInt64.size := by omega
  refine ⟨_, v', if_pos hallowed, hcut, ⟨h.owner.trans howner'.symm, ?_, ?_⟩, howner'⟩
  · rw [UInt64.toNat_add, h.start, hstart, hstart']
    exact Nat.mod_eq_of_lt hstartSum
  · rw [UInt64.toNat_add, h.start, hstop, hstop']
    exact Nat.mod_eq_of_lt hstopSum

theorem Holds.range_of_not_fits (h : Holds w v) (hwords : c.InWords) (hfits : ¬c.Fits v.length) :
    w.range (.ofNat c.start) (.ofNat c.stop) = .error (c.error v.length) := by
  have hstart : (UInt64.ofNat c.start).toNat = c.start := UInt64.toNat_ofNat_of_lt' hwords.1
  have hstop : (UInt64.ofNat c.stop).toNat = c.stop := UInt64.toNat_ofNat_of_lt' hwords.2
  have hrefused : ¬(UInt64.ofNat c.start < .ofNat c.stop ∧ UInt64.ofNat c.stop ≤ w.length) := by
    rw [UInt64.lt_iff_toNat_lt, UInt64.le_iff_toNat_le, hstart, hstop, h.length]
    exact hfits
  rw [range, if_neg hrefused, hstart, hstop, h.length, View.Cut.error]

def bounds (w : WordView) : Path × Nat × Nat × Nat :=
  (w.owner, w.start.toNat, w.stop.toNat, w.length.toNat)

end WordView

def View.bounds (v : View) : Path × Nat × Nat × Nat :=
  (v.owner, v.start, v.stop, v.length)

namespace WordView

theorem Holds.bounds (h : Holds w v) : w.bounds = v.bounds := by
  rw [WordView.bounds, View.bounds, h.owner, h.start, h.stop, h.length]

theorem Holds.follow (h : Holds w v) (howner : v.owner.length < UInt64.size) {cuts : List View.Cut}
    (hwords : ∀ c ∈ cuts, c.InWords) :
    (w.follow cuts).map WordView.bounds = (v.follow cuts).map View.bounds := by
  induction cuts generalizing w v with
  | nil => exact congrArg Except.ok h.bounds
  | cons c cuts ih =>
      rw [List.forall_mem_cons] at hwords
      by_cases hfits : c.Fits v.length
      · obtain ⟨w', v', hrange, hcut, h', howner'⟩ := h.range_of_fits howner hfits
        rw [WordView.follow, hrange, View.follow_cons_of_fits hcut]
        exact ih h' (howner' ▸ howner) hwords.2
      · rw [WordView.follow, h.range_of_not_fits hwords.1 hfits, View.follow,
          View.cut_eq_error hfits]
        rfl

end WordView

/-- A chain of cuts on a path fails at its first cut that does not fit what is left there, with the
bounds of that cut and that length.  A chain in which all cuts fit shows what slicing the segments
step by step leaves, wherever in the chain the window is copied into a path of its own; and with
bounds in machine words no sum and no difference wraps around. -/
theorem View.follow_composes (p : Path) (cuts : List Cut) :
    (∀ e, p.view.follow cuts = .error e ↔ StopsWith p cuts e) ∧
    (FitsAll p cuts → ∃ v, p.view.follow cuts = .ok v ∧ v.segments = slices p cuts ∧
      v.length = (slices p cuts).length ∧ v.last? = (slices p cuts).getLast? ∧
      v.render = Path.render (slices p cuts)) ∧
    (∀ before after v, cuts = before ++ after → p.view.follow before = .ok v →
      (v.segments.view.follow after).map sight = (p.view.follow cuts).map sight) ∧
    (p.length < UInt64.size → (∀ c ∈ cuts, c.InWords) →
      ((WordView.whole p).follow cuts).map WordView.bounds =
        (p.view.follow cuts).map View.bounds) := by
  refine ⟨fun e => ?_, fun hfits => ?_, ?_, fun hlength hwords => ?_⟩
  · rw [follow_eq_error_iff, segments_view]
  · rw [← segments_view p] at hfits
    obtain ⟨v, hfollow, hsegments⟩ := follow_of_fitsAll hfits
    rw [segments_view] at hsegments
    refine ⟨v, hfollow, hsegments, ?_, ?_, ?_⟩
    · rw [← length_segments, hsegments]
    · rw [last?, hsegments]
    · rw [View.render, hsegments]
  · rintro before after v rfl hbefore
    rw [follow_append hbefore]
    exact follow_sight (segments_view v.segments) after
  · exact (WordView.holds_whole hlength).follow hlength hwords

/-- A window of a window of `::a::.::b::c`, with a copy between the cuts, and one cut too many with
the largest machine word as its end. -/
theorem View.follow_composes_nested :
    let p : Path := [.plain "a", .marker, .plain "b", .plain "c"]
    (∃ v, p.view.follow [.range 1 4, .rangeTo 2] = .ok v ∧
      v.segments = [.marker, .plain "b"] ∧ v.length = 2 ∧ v.last? = some (.plain "b") ∧
      v.render = ".::b") ∧
    (∃ w, p.view.follow [.range 1 4] = .ok w ∧
      (w.segments.view.follow [.rangeTo 2]).map sight =
        (p.view.follow [.range 1 4, .rangeTo 2]).map sight) ∧
    p.view.follow [.range 1 4, .rangeTo (UInt64.size - 1), .rangeTo 1] =
      .error ⟨0, UInt64.size - 1, 3⟩ ∧
    ((WordView.whole p).follow [.range 1 4, .rangeTo (UInt64.size - 1), .rangeTo 1]).map
        WordView.bounds =
      (p.view.follow [.range 1 4, .rangeTo (UInt64.size - 1), .rangeTo 1]).map View.bounds := by
  intro p
  have hfits : FitsAll p [.range 1 4, .rangeTo 2] :=
    fitsAll_cons.mpr ⟨by decide, fitsAll_cons.mpr ⟨by decide, fitsAll_nil _⟩⟩
  have hfirst : FitsAll p [.range 1 4] := (fitsAll_cons.mpr ⟨by decide, fitsAll_nil _⟩)
  obtain ⟨-, hnested, hcopied, -⟩ := follow_composes p [.range 1 4, .rangeTo 2]
  obtain ⟨hstops, -, -, hwords⟩ :=
    follow_composes p [.range 1 4, .rangeTo (UInt64.size - 1), .rangeTo 1]
  obtain ⟨w, hw, -⟩ := (follow_composes p [.range 1 4]).2.1 hfirst
  refine ⟨hnested hfits, ⟨w, hw, hcopied [.range 1 4] [.rangeTo 2] w rfl hw⟩, ?_, ?_⟩
  · exact (hstops _).mpr ⟨[.range 1 4], .rangeTo (UInt64.size - 1), [.rangeTo 1], rfl, hfirst,
      by decide, rfl⟩
  · exact hwords (by decide) (by decide)

end XiFront.Path
