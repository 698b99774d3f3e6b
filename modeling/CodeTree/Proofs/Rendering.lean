import Mathlib.Data.List.Forall2
import CodeTree.Trace
import CodeTree.Proofs.Growth

/-! # The text of a datum, part by part

A list spells the texts of its items one after the other, and a record those of the slots of its
layout. Rendering succeeds exactly when each part does.
-/
namespace CodeTree
variable {fields : List (String × Datum)} {ds : List Datum} {slot : Slot} {x z : String}

/-- A flow of events runs to its end and spells a text. -/
def Spells (flow : Flow Event) (x : String) : Prop :=
  flow.fault = none ∧ ∃ xs, Datum.spell flow.items = .ok xs ∧ String.join xs = x

theorem render_ok {d : Datum} : d.render = .ok x ↔ Spells d.trace x := by
  unfold Datum.render Spells
  cases hs : Datum.spell d.trace.items with
  | error fault => simp [hs]
  | ok xs =>
    cases hf : d.trace.fault with
    | some fault => simp [hs,hf]
    | none => simp [hs,hf]

theorem spell_append {a b : List Event} {zs : List String} :
    Datum.spell (a ++ b) = .ok zs ↔ ∃ xs ys, Datum.spell a = .ok xs ∧ Datum.spell b = .ok ys ∧ zs = xs ++ ys := by
  induction a generalizing zs with
  | nil => simp [Datum.spell,eq_comm]
  | cons e a ih =>
    have hskip : ∀ {zs}, Datum.spell (a ++ b) = .ok zs ↔
        ∃ xs ys, Datum.spell a = .ok xs ∧ Datum.spell b = .ok ys ∧ zs = xs ++ ys := ih
    cases e with
    | enter key => exact hskip
    | leave => exact hskip
    | text d =>
      cases d with
      | text s =>
        simp only [List.cons_append,Datum.spell]
        constructor
        · intro h
          cases hz : Datum.spell (a ++ b) with
          | error fault => simp [hz,Except.map] at h
          | ok ws =>
            rw [hz] at h
            cases h
            obtain ⟨xs,ys,hx,hy,rfl⟩ := ih.mp hz
            exact ⟨s :: xs,ys,by simp [hx,Except.map],hy,rfl⟩
        · rintro ⟨xs,ys,hx,hy,rfl⟩
          cases hx' : Datum.spell a with
          | error fault => simp [hx',Except.map] at hx
          | ok ws =>
            rw [hx'] at hx
            cases hx
            rw [ih.mpr ⟨ws,ys,hx',hy,rfl⟩]
            rfl
      | _ => simp [Datum.spell]

theorem Spells.nil : Spells (.ofList []) x ↔ x = "" := by
  simp [Spells,Flow.ofList,Datum.spell,eq_comm]

theorem Spells.skip {es : List Event} (h : Datum.spell es = .ok []) : Spells (.ofList es) x ↔ x = "" := by
  simp [Spells,Flow.ofList,h,eq_comm]

theorem Spells.fail {fault : Fault} : ¬ Spells (.fail fault) x := by
  simp [Spells,Flow.fail]

theorem Spells.append {a b : Flow Event} : Spells (.append a b) z ↔ ∃ x y, Spells a x ∧ Spells b y ∧ z = x ++ y := by
  unfold Flow.append Spells
  cases ha : a.fault with
  | some fault => simp
  | none =>
    simp only [spell_append,true_and]
    constructor
    · rintro ⟨hb,zs,⟨xs,ys,hx,hy,rfl⟩,rfl⟩
      exact ⟨_,_,⟨xs,hx,rfl⟩,⟨hb,ys,hy,rfl⟩,String.join_append⟩
    · rintro ⟨x,y,⟨xs,hx,rfl⟩,⟨hb,ys,hy,rfl⟩,rfl⟩
      exact ⟨hb,_,⟨xs,ys,hx,hy,rfl⟩,String.join_append⟩

theorem Spells.flatMap {α : Type} {f : α → Flow Event} {as : List α} :
    Spells (.flatMap f as) z ↔ ∃ xs, List.Forall₂ (fun a x => Spells (f a) x) as xs ∧ z = String.join xs := by
  induction as generalizing z with
  | nil =>
    rw [Flow.flatMap,Spells.nil]
    constructor
    · rintro rfl
      exact ⟨[],.nil,rfl⟩
    · rintro ⟨xs,h,rfl⟩
      cases h
      rfl
  | cons a as ih =>
    have hcons : Spells (.flatMap f (a :: as)) z ↔ Spells (.append (f a) (.flatMap f as)) z := by
      cases hf : (f a).fault with
      | none => simp [Flow.flatMap,hf]
      | some fault => simp [Flow.flatMap,Flow.append,Spells,hf]
    rw [hcons,Spells.append]
    constructor
    · rintro ⟨x,y,hx,hy,rfl⟩
      obtain ⟨ys,hys,rfl⟩ := ih.mp hy
      exact ⟨x :: ys,.cons hx hys,String.join_cons.symm⟩
    · rintro ⟨xs,h,rfl⟩
      cases h with
      | cons hx hxs => exact ⟨_,_,hx,ih.mpr ⟨_,hxs,rfl⟩,String.join_cons⟩

theorem Spells.between {key : Key} {flow : Flow Event} :
    Spells (.append (.ofList [.enter key]) (.append flow (.ofList [.leave]))) x ↔ Spells flow x := by
  simp only [Spells.append,Spells.skip (show Datum.spell [.enter key] = .ok [] from rfl),
    Spells.skip (show Datum.spell [.leave] = .ok [] from rfl)]
  simp

theorem traceItems_spells {i : Nat} : Spells (Datum.traceItems i ds) z ↔
      ∃ xs, List.Forall₂ (fun d x => Datum.render d = .ok x) ds xs ∧ z = String.join xs := by
  induction ds generalizing i z with
  | nil =>
    rw [Datum.traceItems,Spells.nil]
    constructor
    · rintro rfl
      exact ⟨[],.nil,rfl⟩
    · rintro ⟨xs,h,rfl⟩
      cases h
      rfl
  | cons d ds ih =>
    rw [Datum.traceItems,Spells.append]
    simp only [Spells.between,ih]
    constructor
    · rintro ⟨x,y,hx,⟨ys,hys,rfl⟩,rfl⟩
      exact ⟨x :: ys,.cons (render_ok.mpr hx) hys,String.join_cons.symm⟩
    · rintro ⟨xs,h,rfl⟩
      cases h with
      | cons hx hxs => exact ⟨_,_,render_ok.mp hx,⟨_,hxs,rfl⟩,String.join_cons⟩

theorem render_list : (Datum.list ds).render = .ok x ↔
    ∃ xs, List.Forall₂ (fun d y => Datum.render d = .ok y) ds xs ∧ x = String.join xs := by
  rw [render_ok,Datum.trace,traceItems_spells]

/-- The text of a slot that is shown: its own or that of its field. -/
def SlotText (fields : List (String × Datum)) (slot : Slot) (x : String) : Prop :=
  match slot with
  | .constant text _ => x = text
  | .field .text f _ => lookupLast f.word fields = some (.text x)
  | .field _ f _ => ∃ d, lookupLast f.word fields = some d ∧ d.render = .ok x

/-- A slot of a record spells a text, or nothing where it is not shown. -/
def SlotSpells (fields : List (String × Datum)) (slot : Slot) (x : String) : Prop :=
  if slot.shown.holds fields then SlotText fields slot x else x = ""

theorem SlotSpells.shown (h : slot.shown.holds fields = true) : SlotSpells fields slot x ↔ SlotText fields slot x := by
  simp only [SlotSpells,if_pos h]

theorem SlotSpells.hidden (h : ¬ slot.shown.holds fields = true) : SlotSpells fields slot x ↔ x = "" := by
  simp only [SlotSpells,if_neg h]

theorem lookupLast_traceFields (word : String) (fields : List (String × Datum)) :
    lookupLast word (Datum.traceFields fields) = (lookupLast word fields).map Datum.trace :=
  lookupLast_each rfl (fun _ _ _ => rfl) word fields

theorem slotEvents_spells : Spells (slotEvents fields (Datum.traceFields fields) slot) x ↔ SlotSpells fields slot x := by
  unfold slotEvents SlotSpells
  by_cases hs : slot.shown.holds fields = true
  · rw [if_pos hs,if_pos hs]
    unfold SlotText
    cases slot with
    | constant text shown =>
      simp [Spells,Flow.ofList,Datum.spell,Except.map,eq_comm]
    | field form f shown =>
      cases form with
      | text =>
        dsimp only
        cases lookupLast f.word fields with
        | none => simp [Spells.fail]
        | some d =>
          cases d <;> simp [Spells,Flow.ofList,Datum.spell,Except.map]
      | _ =>
        dsimp only
        rw [lookupLast_traceFields]
        cases lookupLast f.word fields with
        | none => simp [Spells.fail]
        | some d => simp [Spells.between,render_ok]
  · rw [if_neg hs,if_neg hs,Spells.nil]

/-- The text of a record is those of the slots of its layout. -/
theorem render_record : (Datum.record fields).render = .ok x ↔
    ∃ layout xs, recordLayout fields = .ok layout ∧ List.Forall₂ (SlotSpells fields) layout xs ∧ x = String.join xs := by
  rw [render_ok,Datum.trace]
  cases hl : recordLayout fields with
  | error fault => simp [Spells.fail]
  | ok layout =>
    simp only [Spells.flatMap,slotEvents_spells]
    constructor
    · rintro ⟨xs,h,rfl⟩
      exact ⟨layout,xs,rfl,h,rfl⟩
    · rintro ⟨_,xs,heq,h,rfl⟩
      cases heq
      exact ⟨xs,h,rfl⟩

end CodeTree
