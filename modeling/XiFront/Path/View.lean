import XiFront.Path

namespace XiFront.Path

structure View where
  owner : Path
  start : Nat
  stop : Nat
  start_le_stop : start ≤ stop := by omega
  stop_le_length : stop ≤ owner.length := by omega

structure RangeError where
  start : Nat
  stop : Nat
  length : Nat
  deriving DecidableEq, Repr

def RangeError.message (e : RangeError) : String :=
  "invalid range " ++ toString e.start ++ ".." ++ toString e.stop ++ " for path of length " ++
    toString e.length

def view (p : Path) : View where
  owner := p
  start := 0
  stop := p.length
  start_le_stop := Nat.zero_le _
  stop_le_length := Nat.le_refl _

namespace View

def length (v : View) : Nat :=
  v.stop - v.start

def isEmpty (v : View) : Bool :=
  v.start = v.stop

def segments (v : View) : Path :=
  (v.owner.drop v.start).take v.length

def get? (v : View) (n : Nat) : Option Segment :=
  v.segments[n]?

def last? (v : View) : Option Segment :=
  v.segments.getLast?

def render (v : View) : String :=
  Path.render v.segments

/-- The part of the window from `start` up to `stop`, which must not be empty. -/
def range (v : View) (start stop : Nat) : Except RangeError View :=
  if h : start < stop ∧ stop ≤ v.length then
    .ok
      { owner := v.owner
        start := v.start + start
        stop := v.start + stop
        start_le_stop := Nat.add_le_add_left (Nat.le_of_lt h.1) _
        stop_le_length := by
          have := v.start_le_stop
          have := v.stop_le_length
          have := h.2
          unfold length at this
          omega }
  else .error ⟨start, stop, v.length⟩

def rangeTo (v : View) (stop : Nat) : Except RangeError View :=
  v.range 0 stop

/-- One step of a chain of windows. -/
inductive Cut where
  | range (start stop : Nat)
  | rangeTo (stop : Nat)
  deriving DecidableEq, Repr

def cut (v : View) : Cut → Except RangeError View
  | .range start stop => v.range start stop
  | .rangeTo stop => v.rangeTo stop

/-- The window after a chain of cuts, each made in the window before it. -/
def follow (v : View) : List Cut → Except RangeError View
  | [] => .ok v
  | c :: cs =>
      match v.cut c with
      | .ok w => w.follow cs
      | .error e => .error e

@[simp] theorem length_segments (v : View) : v.segments.length = v.length := by
  have := v.start_le_stop
  have := v.stop_le_length
  simp only [segments, length, List.length_take, List.length_drop]
  omega

theorem segments_of_range {v w : View} {start stop : Nat} (h : v.range start stop = .ok w) :
    w.segments = (v.segments.drop start).take (stop - start) := by
  unfold range at h
  split at h
  · next bounds =>
      obtain rfl := Except.ok.inj h
      have := bounds.2
      simp only [segments, length, List.drop_take, List.drop_drop, List.take_take] at *
      congr 1
      omega
  · cases h

end View

@[simp] theorem segments_view (p : Path) : p.view.segments = p := by
  simp [view, View.segments, View.length]

end XiFront.Path
