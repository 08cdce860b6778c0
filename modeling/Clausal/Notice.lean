/-!
# Notices

What a run makes known while it goes on: lines of output for the user, and records for a log,
which are kept apart from the output. The order of notices is the order of the run, and what is
made known of an event depends on whether the run is traced.
-/

set_option autoImplicit false

namespace Clausal

inductive Level
  | trace
  | debug
  | warn
deriving DecidableEq

structure Record where
  level : Level
  message : String
deriving DecidableEq

inductive Notice
  | line (text : String)
  | record (r : Record)
deriving DecidableEq

namespace Notice

def line? : Notice → Option String
  | .line text => some text
  | .record _ => none

def record? : Notice → Option Record
  | .line _ => none
  | .record r => some r

def lines (ns : List Notice) : List String := ns.filterMap line?

def records (ns : List Notice) : List Record := ns.filterMap record?

section
variable (traced : Bool)

/-- The record of an event comes first; its lines are there only in a run that is traced. -/
def tell (r : Option Record) (texts : List String) : List Notice :=
  r.toList.map .record ++ if traced then texts.map .line else []

theorem records_tell (r : Option Record) (texts : List String) :
    records (tell traced r texts) = r.toList := by
  cases r <;> cases traced <;>
    simp [records, tell, record?, List.filterMap_map, Function.comp_def]

theorem lines_tell (r : Option Record) (texts : List String) :
    lines (tell traced r texts) = if traced then texts else [] := by
  cases r <;> cases traced <;>
    simp [lines, tell, line?, List.filterMap_cons, List.filterMap_map, Function.comp_def]

variable {ε : Type} (r : ε → Option Record) (texts : ε → List String) (es : List ε)

theorem records_flatMap_tell :
    records (es.flatMap fun e => tell traced (r e) (texts e)) = es.filterMap r := by
  induction es with
  | nil => rfl
  | cons e es ih =>
    have he := records_tell traced (r e) (texts e)
    unfold records at he ih ⊢
    rw [List.flatMap_cons, List.filterMap_append, he, ih, List.filterMap_cons]
    cases r e <;> rfl

theorem lines_flatMap_tell :
    lines (es.flatMap fun e => tell traced (r e) (texts e)) =
      if traced then es.flatMap texts else [] := by
  induction es with
  | nil => cases traced <;> rfl
  | cons e es ih =>
    have he := lines_tell traced (r e) (texts e)
    unfold lines at he ih ⊢
    rw [List.flatMap_cons, List.filterMap_append, he, ih]
    cases traced <;> rfl

end
end Notice

/-- An observer that keeps the events in their order. -/
def keep {ε : Type} (e : ε) (events : List ε) : List ε := events ++ [e]

/-- An observer that adds what an event makes known to what was heard before. -/
def Notice.hear {ε : Type} (notices : ε → List Notice) (e : ε) (heard : List Notice) :
    List Notice :=
  heard ++ notices e

end Clausal
