import CodeTree.Datum
import CodeTree.Flow
import CodeTree.Layout

/-! # Reading a datum

A node written as a datum is read in the order of its layout. The trace of a datum is the flow of
events met on the way: a slot or an item is entered, a text is met, a slot or an item is left. The
text of a datum is what its trace spells.
-/
namespace CodeTree

inductive Event where
  | enter (key : Key)
  | text (d : Datum)
  | leave
deriving Repr

def Shown.holds (fields : List (String × Datum)) : Shown → Bool
  | .always => true
  | .never => false
  | .whenSet keys => keys.all (fun f => ((lookupLast f.word fields).map Datum.truth).getD false)

/-- The layout of a record, by the type it names. -/
def recordLayout (fields : List (String × Datum)) : Except Fault (List Slot) :=
  match lookupLast "type" fields with
  | none => .error .noKey
  | some (.text type) =>
    match Kind.ofWord? type with
    | some kind => .ok kind.layout
    | none => .error (.refused (.noLayout type))
  | some (.int i) => .error (.refused (.noLayout (toString i)))
  | some (.bool b) => .error (.refused (.noLayout (if b then "True" else "False")))
  | some .null => .error (.refused (.noLayout "None"))
  | some _ => .error .wrongSort

/-- The events of one slot, given the traces of the fields of the record. -/
def slotEvents (fields : List (String × Datum)) (traces : List (String × Flow Event))
    (slot : Slot) : Flow Event :=
  if slot.shown.holds fields then
    match slot with
    | .constant text _ => .ofList [.enter (.name text), .text (.text text), .leave]
    | .field .text f _ =>
      match lookupLast f.word fields with
      | some d => .ofList [.enter (.name f.word), .text d, .leave]
      | none => .fail .noKey
    | .field _ f _ =>
      match lookupLast f.word traces with
      | some trace =>
        .append (.ofList [.enter (.name f.word)]) (.append trace (.ofList [.leave]))
      | none => .fail .noKey
  else .ofList []

namespace Datum

mutual

def trace : Datum → Flow Event
  | .list items => traceItems 0 items
  | .record fields =>
    match recordLayout fields with
    | .ok layout => .flatMap (slotEvents fields (traceFields fields)) layout
    | .error fault => .fail fault
  | _ => .fail .notRenderable

def traceItems (i : Nat) : List Datum → Flow Event
  | [] => .ofList []
  | d :: rest =>
    .append (.append (.ofList [.enter (.index i)]) (.append d.trace (.ofList [.leave])))
      (traceItems (i + 1) rest)

def traceFields : List (String × Datum) → List (String × Flow Event)
  | [] => []
  | (k, d) :: rest => (k, d.trace) :: traceFields rest

end

/-- The texts met by the events, in order. Anything but a text among them is a fault. -/
def spell : List Event → Except Fault (List String)
  | [] => .ok []
  | .text (.text s) :: rest => (spell rest).map (s :: ·)
  | .text _ :: _ => .error .wrongSort
  | _ :: rest => spell rest

def render (d : Datum) : Except Fault String :=
  let trace := d.trace
  match spell trace.items with
  | .error fault => .error fault
  | .ok texts =>
    match trace.fault with
    | some fault => .error fault
    | none => .ok (String.join texts)

end Datum

/-- Whether a slot that is shown has the given word, looking no further than the first such slot. -/
def showsSlot (fields : List (String × Datum)) (word : String) : List Slot → Except Fault Bool
  | [] => .ok false
  | slot :: rest =>
    if slot.shown.holds fields then
      match slot with
      | .constant text _ => if text == word then .ok true else showsSlot fields word rest
      | .field _ f _ =>
        match lookupLast f.word fields with
        | none => .error .noKey
        | some _ => if f.word == word then .ok true else showsSlot fields word rest
    else showsSlot fields word rest

/-- Whether the datum of a node shows a slot with the given word. -/
def Datum.showsSlot (d : Datum) (word : String) : Except Fault Bool :=
  match d with
  | .record fields =>
    match recordLayout fields with
    | .ok layout => CodeTree.showsSlot fields word layout
    | .error fault => .error fault
  | .list _ => .ok false
  | _ => .error .notRenderable

end CodeTree
