import CodeTree.Proofs.Rendering
import CodeTree.Proofs.Settling

/-! # Building keeps the text

A list of nodes built from data has the text of the data, up to the spacing that storing an alias or
the delimiter of an exception sets anew. The text stays exactly when that spacing was one space, or
nothing before a comma, from the start.
-/
namespace CodeTree
variable {d : Datum} {f : Field} {form : Form} {k : Kind} {fields : List (String × Datum)} {q w : List Char}
  {ds : List Datum} {slots : List Slot} {a b : Mark} {c : NodeCell} {n : NodeId} {place : Option Attr} {p : Parser}
  {shown : Shown} {slot : Slot} {t : Store} {x : String} {parent : Value}

section Pieces

/-- How many characters are no blanks. -/
def ink (cs : List Char) : Nat := cs.countP (· ≠ ' ')

theorem ink_append (x y : List Char) : ink (x ++ y) = ink x + ink y := List.countP_append

theorem ink_eq_zero {x : List Char} : ink x = 0 ↔ ∀ c ∈ x, c = ' ' := by
  simp [ink,List.countP_eq_zero]

/-- A text and what it becomes. The new one has no more ink; where it has the same, it can be told off
from what follows, and the two are the same text exactly when a condition holds. -/
structure Piece (x y : List Char) (same : Prop) : Prop where
  less : ink y ≤ ink x
  cancel : ink x = ink y → ∀ u v, x ++ u = y ++ v → same ∧ u = v
  of_same : same → x = y

namespace Piece
variable {x y x' y' : List Char} {C D : Prop}

theorem refl (x : List Char) : Piece x x True :=
  ⟨Nat.le_refl _,fun _ _ _ h => ⟨trivial,List.append_cancel_left h⟩,fun _ => rfl⟩

theorem append (h : Piece x y C) (h' : Piece x' y' D) : Piece (x ++ x') (y ++ y') (C ∧ D) where
  less := by
    rw [ink_append,ink_append]
    exact Nat.add_le_add h.less h'.less
  cancel hi u v huv := by
    rw [ink_append,ink_append] at hi
    have hl := h.less
    have hl' := h'.less
    rw [List.append_assoc,List.append_assoc] at huv
    obtain ⟨hC,hrest⟩ := h.cancel (by omega) _ _ huv
    obtain ⟨hD,huv⟩ := h'.cancel (by omega) _ _ hrest
    exact ⟨⟨hC,hD⟩,huv⟩
  of_same hs := by rw [h.of_same hs.1,h'.of_same hs.2]

theorem congr (h : Piece x y C) (hCD : C ↔ D) : Piece x y D :=
  ⟨h.less,fun hi u v huv => ⟨hCD.mp (h.cancel hi u v huv).1,(h.cancel hi u v huv).2⟩,fun hD => h.of_same (hCD.mpr hD)⟩

theorem same_iff (h : Piece x y C) : y = x ↔ C := by
  constructor
  · intro hyx
    exact (h.cancel (by rw [hyx]) [] [] (by rw [hyx])).1
  · intro hC
    exact (h.of_same hC).symm

theorem leading_blanks {p u v : List Char} (hp : ∀ c ∈ p, c = ' ') (hq : ∀ c ∈ q, c = ' ') (hw : ∃ c ∈ w, c ≠ ' ')
    (h : p ++ (w ++ u) = q ++ (w ++ v)) : p = q := by
  have hword : ∀ t, (w ++ t).takeWhile (· = ' ') = w.takeWhile (· = ' ') := by
    intro t
    rw [List.takeWhile_append,if_neg]
    intro hlen
    obtain ⟨c,hc,hne⟩ := hw
    rw [← (List.takeWhile_prefix _).eq_of_length hlen] at hc
    exact hne (by simpa using List.all_eq_true.mp List.all_takeWhile c hc)
  have htake := congrArg (List.takeWhile (fun c => decide (c = ' '))) h
  rw [List.takeWhile_append_of_pos (by simpa using hp),hword,List.takeWhile_append_of_pos (by simpa using hq),hword] at htake
  exact List.append_cancel_right htake

theorem hole {p : List Char} (hq : ∀ c ∈ q, c = ' ') (hw : ∃ c ∈ w, c ≠ ' ') : Piece (p ++ w) (q ++ w) (p = q) where
  less := by
    rw [ink_append,ink_append,ink_eq_zero.mpr hq]
    omega
  cancel hi u v huv := by
    rw [ink_append,ink_append,ink_eq_zero.mpr hq] at hi
    rw [List.append_assoc,List.append_assoc] at huv
    have hpq := leading_blanks (ink_eq_zero.mp (by omega)) hq hw huv
    subst hpq
    exact ⟨rfl,List.append_cancel_left (List.append_cancel_left huv)⟩
  of_same h := by rw [h]

end Piece

end Pieces

section Conditions

/-- Whether a record holds what its kind is made for: an integer in its usual spelling, an operator
without the equals sign, and no list where a node belongs. -/
def regularRecord (fields : List (String × Datum)) : Bool :=
  match kindOf fields with
  | none => true
  | some k =>
    (k != .int || match lookupLast "value" fields with
      | some (.text s) => (Text.integer? s).map toString == some s
      | _ => false) &&
    (k != .assignment || match lookupLast "operator" fields with
      | some (.text s) => s.toList.getLast? != some '='
      | _ => true) &&
    k.layout.all (fun slot => match slot with
      | .field .child f _ => match lookupLast f.word fields with
        | some (.list _) => false
        | _ => true
      | _ => true)

mutual

/-- Whether all records of a datum are regular. -/
def Datum.regular : Datum → Bool
  | .record fields => regularRecord fields && regularFields fields
  | .list ds => regularEach ds
  | _ => true

def regularEach : List Datum → Bool
  | [] => true
  | d :: ds => d.regular && regularEach ds

def regularFields : List (String × Datum) → Bool
  | [] => true
  | (_, d) :: rest => d.regular && regularFields rest

end

/-- The text of spacing that is set anew. -/
def spacingText (present : Bool) : String := if present then " " else ""

theorem render_spacing (present : Bool) : (spacing present).render = .ok (spacingText present) := by
  cases present <;> rfl

/-- Whether the text of a slot stays when a node is built: spacing that is set anew has to read like
the new one, all else stays as its parts do. -/
def slotKeeps (k : Kind) (fields : List (String × Datum)) (kept : List (String × Bool)) (slot : Slot) : Bool :=
  !slot.shown.holds fields || match slot with
    | .constant _ _ | .field .text _ _ | .field .flag _ _ => true
    | .field _ f _ =>
      match respaced k fields f with
      | some present =>
        match ((lookupLast f.word fields).getD .null).render with
        | .ok x => x == spacingText present
        | .error _ => false
      | none => (lookupLast f.word kept).getD true

mutual

/-- Whether the text of a datum stays when a node is built from it. -/
def keepsSpacing : Datum → Bool
  | .record fields =>
    match kindOf fields with
    | some k => k.layout.all (slotKeeps k fields (keepsFields fields))
    | none => true
  | .list ds => keepsEach ds
  | _ => true

def keepsEach : List Datum → Bool
  | [] => true
  | d :: ds => keepsSpacing d && keepsEach ds

def keepsFields : List (String × Datum) → List (String × Bool)
  | [] => []
  | (k, d) :: rest => (k,keepsSpacing d) :: keepsFields rest

end

theorem regularFields_mem (h : regularFields fields = true) : ∀ x ∈ fields, x.2.regular = true := by
  induction fields with
  | nil => simp
  | cons y fields ih =>
    obtain ⟨k,d⟩ := y
    simp only [regularFields,Bool.and_eq_true] at h
    intro x hx
    rcases List.mem_cons.mp hx with rfl | hx
    · exact h.1
    · exact ih h.2 x hx

theorem lookupLast_keepsFields (word : String) (fields : List (String × Datum)) :
    lookupLast word (keepsFields fields) = (lookupLast word fields).map keepsSpacing :=
  lookupLast_each rfl (fun _ _ _ => rfl) word fields

end Conditions

section Parts
variable {k : Kind} {fields : List (String × Datum)} {form : Form} {f : Field} {shown : Shown} {d : Datum}

theorem Kind.keeps_operator {s : String} (h : s.toList.getLast? ≠ some '=') :
    Kind.keeps .assignment .operator (.text s) = .text s := by
  simp only [Kind.keeps]
  rcases hx : s.toList with _ | ⟨c,_ | ⟨e,_ | ⟨g,rest⟩⟩⟩
  · rfl
  · have hc : c ≠ '=' := by simpa [hx] using h
    simp [hc]
  · have he : e ≠ '=' := by simpa [hx] using h
    simp [he]
  · rfl

theorem keeps_regular (hkind : kindOf fields = some k) (hreg : regularRecord fields = true)
    (hd : lookupLast f.word fields = some d) : k.keeps f (.ofDatum d) = .ofDatum d := by
  by_cases hop : k = .assignment ∧ f = .operator
  · obtain ⟨rfl,rfl⟩ := hop
    simp only [regularRecord,hkind,Bool.and_eq_true] at hreg
    have hword : lookupLast "operator" fields = some d := hd
    have hlast := hreg.1.2
    rw [hword] at hlast
    cases d with
    | text s => exact Kind.keeps_operator (by simpa using hlast)
    | _ => rfl
  · exact Kind.keeps_eq (fun hk hf => hop ⟨hk,hf⟩) _

theorem part_of_keeps (hslot : .field form f shown ∈ k.layout) (hform : form.isText = true)
    (hd : lookupLast f.word fields = some d) (hkeeps : k.keeps f (.ofDatum d) = .ofDatum d) : settledParts k fields f = d := by
  have hpart : settledParts k fields f = (k.keeps f (.ofDatum d)).toDatum?.getD .null := by
    unfold settledParts settledPart
    rw [formIn_eq (layout_nodup k) hslot,hd]
    cases form <;> first | rfl | cases hform
  rw [hpart,hkeeps,Value.toDatum_ofDatum]
  rfl

theorem part_text (hslot : .field form f shown ∈ k.layout) (hform : form.isText = true)
    (hkind : kindOf fields = some k) (hreg : regularRecord fields = true) (hd : lookupLast f.word fields = some d) :
    settledParts k fields f = d :=
  part_of_keeps hslot hform hd (keeps_regular hkind hreg hd)

/-- What was built is never written back as nothing. -/
theorem settled_truth (h : Kept (build d parent place) p a b n t) : (settled d).truth = true := by
  obtain ⟨fields,k,c,rfl,hg⟩ := h.grown
  by_cases hint : k = .int
  · subst hint
    simp only [settled,settledRecord,hg.kindOf]
    rfl
  · rw [settled_record hg.kindOf hint]
    have htype : Field.type ∈ k.textFields := mem_foldl_add.mpr (.inl List.mem_cons_self)
    cases htexts : k.textFields with
    | nil => simp [htexts] at htype
    | cons f fs => simp [gathered,htexts,Datum.truth]

/-- Slots are shown by fields of the layout that no other slot sets anew. -/
def Shown.fits (k : Kind) : Shown → Bool
  | .whenSet keys => keys.all (fun f => (slotFields k.layout).contains f &&
      !([Field.firstFormatting,.secondFormatting,.thirdFormatting].contains f))
  | _ => true

theorem layout_shown (k : Kind) : ∀ slot ∈ k.layout, slot.shown.fits k = true := by
  cases k <;> decide

theorem respaced_eq_none (hf : f ∉ [Field.firstFormatting,.secondFormatting,.thirdFormatting]) :
    respaced k fields f = none := by
  cases hr : respaced k fields f with
  | none => rfl
  | some present => exact absurd (spacingOf_fields (List.mem_map_of_mem (lookupLast_mem hr))) hf

end Parts

/-- The text of a node built from a datum is the old one, up to spacing that is set anew. -/
def Lossless (d : Datum) : Prop :=
  ∀ ⦃p : Parser⦄ ⦃a b : Mark⦄ ⦃n : NodeId⦄ ⦃parent : Value⦄ ⦃place : Option Attr⦄ ⦃t : Store⦄,
    Kept (build d parent place) p a b n t → d.regular = true → ∀ x, d.render = .ok x →
      ∃ y, (settled d).render = .ok y ∧ Piece x.toList y.toList (keepsSpacing d = true)

theorem lossless_row (ih : ∀ d ∈ ds, Lossless d) {ms : List Value} (h : Kept (buildEach ds parent place) p a b ms t)
    (hreg : regularEach ds = true) (hx : (Datum.list ds).render = .ok x) :
    ∃ y, (Datum.list (ds.map settled)).render = .ok y ∧ Piece x.toList y.toList (keepsEach ds = true) := by
  obtain ⟨xs,hxs,rfl⟩ := render_list.mp hx
  have hrow : ∃ ys, List.Forall₂ (fun d y => Datum.render d = .ok y) (ds.map settled) ys ∧
      Piece (String.join xs).toList (String.join ys).toList (keepsEach ds = true) := by
    clear hx
    induction ds generalizing a ms xs with
    | nil =>
      cases hxs
      exact ⟨[],.nil,(Piece.refl _).congr (by simp [keepsEach])⟩
    | cons d ds ihds =>
      obtain ⟨n,rest,e,rfl,hd,hds,-,-⟩ := h.cons
      simp only [regularEach,Bool.and_eq_true] at hreg
      cases hxs with
      | cons hx hxs =>
        obtain ⟨y,hy,hpiece⟩ := ih d List.mem_cons_self hd hreg.1 _ hx
        obtain ⟨ys,hys,hpieces⟩ := ihds (List.forall_mem_cons.mp ih).2 hds hreg.2 _ hxs
        refine ⟨y :: ys,.cons hy hys,?_⟩
        simp only [String.join_cons,String.toList_append]
        exact (hpiece.append hpieces).congr (by simp [keepsEach])
  obtain ⟨ys,hys,hpiece⟩ := hrow
  exact ⟨_,render_list.mpr ⟨ys,hys,rfl⟩,hpiece⟩

theorem render_ne_ok (h : d.render = .ok x) : (∃ ds, d = .list ds) ∨ ∃ fields, d = .record fields ∧ fields ≠ [] := by
  rw [render_ok] at h
  cases d with
  | list ds => exact .inl ⟨ds,rfl⟩
  | record fields =>
    refine .inr ⟨fields,rfl,?_⟩
    rintro rfl
    exact Spells.fail h
  | _ => exact absurd h Spells.fail

theorem list_of_render {ds : List Datum} (h : d.render = .ok x)
    (hds : d = .list ds ∨ ds = [] ∧ (d = .text "" ∨ d = .record [])) : d = .list ds := by
  rcases hds with hds | ⟨-,rfl | rfl⟩
  · exact hds
  · rcases render_ne_ok h with ⟨_,h⟩ | ⟨_,h,-⟩ <;> cases h
  · rcases render_ne_ok h with ⟨_,h⟩ | ⟨_,h,hne⟩ <;> cases h
    exact absurd rfl hne

section Spread

/-- A slot with a text that stays and is more than blanks. -/
structure Inky (k : Kind) (fields : List (String × Datum)) (slot : Slot) : Prop where
  keeps : slotKeeps k fields (keepsFields fields) slot = true
  solid : ∀ f ∈ slotFields [slot], respaced k fields f = none
  inked : ∀ w, SlotSpells fields slot w → ∃ c ∈ w.toList, c ≠ ' '

/-- Slots among which spacing is set anew only right before a word. -/
inductive Spread (k : Kind) (fields : List (String × Datum)) : List Slot → Prop where
  | nil : Spread k fields []
  | solid {slot : Slot} {rest : List Slot} (none : ∀ f ∈ slotFields [slot], respaced k fields f = none)
      (more : Spread k fields rest) : Spread k fields (slot :: rest)
  | hole {f : Field} {shown : Shown} {slot : Slot} {rest : List Slot} {present : Bool}
      (some : respaced k fields f = some present) (visible : shown.holds fields = true) (word : Inky k fields slot)
      (more : Spread k fields rest) : Spread k fields (.field .formatting f shown :: slot :: rest)

variable {k : Kind} {fields : List (String × Datum)}

theorem Spread.of_solid (h : ∀ f ∈ slotFields slots, respaced k fields f = none) : Spread k fields slots := by
  induction slots with
  | nil => exact .nil
  | cons slot slots ih =>
    have hcons : slotFields (slot :: slots) = slotFields [slot] ++ slotFields slots := by
      cases slot <;> rfl
    rw [hcons] at h
    exact .solid (fun f hf => h f (List.mem_append_left _ hf)) (ih (fun f hf => h f (List.mem_append_right _ hf)))

theorem spacingOf_around (before rest : List Slot) (hbefore : (slotFields before).all (fun f => !k.respaces f) = true)
    (hrest : (slotFields rest).all (fun f => !k.respaces f) = true) (hd : lookupLast f.word fields = some d) :
    spacingOf k fields (before ++ .field form f shown :: rest) = respacing k f d := by
  have happend : spacingOf k fields (before ++ .field form f shown :: rest) =
      spacingOf k fields before ++ (respacing k f d ++ spacingOf k fields rest) := by
    simp [spacingOf,slotFields,hd]
  rw [happend,spacingOf_eq_nil hbefore,spacingOf_eq_nil hrest,List.nil_append,List.append_nil]

theorem respaced_none_of_after (h : (slotFields (after f k.layout)).all (fun f => !k.respaces f) = true) :
    respaced k fields f = none := by
  unfold respaced
  rw [spacingOf_eq_nil h]
  rfl

end Spread

section Slots
variable {p : Parser} {t : Store} {a b : Mark} {n : NodeId} {parent : Value} {place : Option Attr}
  {fields : List (String × Datum)} {k : Kind} {c : NodeCell} (hg : Grown p t a b n parent place fields k c)
  (hk : k ≠ .int) (hreg : regularRecord fields = true)
include hg hk

theorem Grown.list_items (hslot : .field form f shown ∈ k.layout) (hform : form.isList = true)
    (hr : respaced k fields f = none) :
    ∃ d ds x y ms, lookupLast f.word fields = some d ∧ Kept (buildEach ds (.node n) (some (.field f))) p x y ms t ∧
      (d = .list ds ∨ ds = [] ∧ (d = .text "" ∨ d = .record [])) := by
  obtain ⟨d,v,x,y,hd,hv,hx,hy,hh⟩ := hg.slot hk hslot
  rw [Slotted,hr] at hh
  have hlist : HoldsList p t n k f d x y v := by cases form <;> first | exact hh | cases hform
  obtain ⟨ms,e,-,hkept,-⟩ := hlist.members
  obtain ⟨ds,hrow,hds⟩ := hkept.items
  exact ⟨d,ds,x,e,ms,hd,hrow,hds⟩

theorem Grown.child_built (hslot : .field .child f shown ∈ k.layout) (hd : lookupLast f.word fields = some d)
    (htruth : d.truth = true) : ∃ x y m, Kept (build d (.node n) (some (.field f))) p x y m t := by
  obtain ⟨d',v,x,y,hd',hv,hx,hy,hh⟩ := hg.slot hk hslot
  rw [hd] at hd'
  cases hd'
  have hr : respaced k fields f = none := by
    cases hr : respaced k fields f with
    | none => rfl
    | some present => cases respaced_formatting hslot hr
  rw [Slotted,hr] at hh
  simp only [Holds,HoldsChild,if_pos htruth] at hh
  obtain ⟨m,e,-,-,hkept⟩ := hh
  exact ⟨x,e,m,hkept⟩

include hreg

theorem Grown.part_truth (hslot : .field form f shown ∈ k.layout) (hr : respaced k fields f = none)
    (hd : lookupLast f.word fields = some d) : (settledParts k fields f).truth = d.truth := by
  have hlist : form.isList = true → (settledParts k fields f).truth = d.truth := by
    intro hform
    obtain ⟨d',ds,x,y,ms,hd',hrow,hds⟩ := hg.list_items hk hslot hform hr
    rw [hd] at hd'
    cases hd'
    rw [part_list hslot hform hd,hr]
    rcases hds with rfl | ⟨rfl,rfl | rfl⟩
    · cases ds <;> rfl
    · rfl
    · rfl
  cases form with
  | text | flag => rw [part_text hslot rfl hg.kindOf hreg hd]
  | children => exact hlist rfl
  | formatting => exact hlist rfl
  | child =>
    rw [part_child hslot hd]
    by_cases htruth : d.truth = true
    · obtain ⟨x,y,m,hkept⟩ := hg.child_built hk hslot hd htruth
      rw [if_pos htruth,settled_truth hkept,htruth]
    · rw [if_neg htruth,Bool.eq_false_iff.mpr htruth]
      rfl

theorem Grown.shown_eq (hslot : slot ∈ k.layout) :
    slot.shown.holds (gathered k (settledParts k fields)) = slot.shown.holds fields := by
  have hfits := layout_shown k slot hslot
  cases hs : slot.shown with
  | always => rfl
  | never => rfl
  | whenSet keys =>
    rw [hs] at hfits
    simp only [Shown.fits,List.all_eq_true,Bool.and_eq_true,List.contains_iff_mem] at hfits
    simp only [Shown.holds]
    rw [Bool.eq_iff_iff,List.all_eq_true,List.all_eq_true]
    refine forall₂_congr (fun f hf => ?_)
    obtain ⟨hin,hne⟩ := hfits f hf
    simp only [slotFields,List.mem_filterMap] at hin
    obtain ⟨slot',hslot',heq⟩ := hin
    cases slot' with
    | constant text shown' => cases heq
    | field form g shown' =>
      cases heq
      have hr : respaced k fields f = none := respaced_eq_none (by simpa using hne)
      obtain ⟨d,v,x,y,hd,-⟩ := hg.slot hk hslot'
      rw [lookup_gathered (slot_field_mem hslot'),hd]
      simp only [Option.map_some,Option.getD_some,hg.part_truth hk hreg hslot' hr hd]

/-- A slot that is shown and that no other one sets anew keeps its text as its parts do. -/
theorem Grown.slot_text (hregs : regularFields fields = true)
    (ih : ∀ word d, lookupLast word fields = some d → Lossless d ∧ ∀ ds, d = .list ds → ∀ e ∈ ds, Lossless e)
    (hslot : .field form f shown ∈ k.layout) (hr : respaced k fields f = none) (hx : SlotText fields (.field form f shown) x) :
    ∃ y, SlotText (gathered k (settledParts k fields)) (.field form f shown) y ∧
      Piece x.toList y.toList (form.isText = true ∨ ∃ d, lookupLast f.word fields = some d ∧ keepsSpacing d = true) := by
  have hlookup : lookupLast f.word (gathered k (settledParts k fields)) = some _ :=
    lookup_gathered (slot_field_mem hslot)
  have htext : form.isText = true → ∀ d, lookupLast f.word fields = some d →
      lookupLast f.word (gathered k (settledParts k fields)) = some d := by
    intro hform d hd
    rw [hlookup,part_text hslot hform hg.kindOf hreg hd]
  have hsome : ∀ {d}, lookupLast f.word fields = some d → form.isText = false →
      ((form.isText = true ∨ ∃ d, lookupLast f.word fields = some d ∧ keepsSpacing d = true) ↔ keepsSpacing d = true) := by
    intro d hd hform
    simp [hd,hform]
  have hlist : form.isList = true → form.isText = false → (∃ d, lookupLast f.word fields = some d ∧ d.render = .ok x) →
      ∃ y, (∃ d, lookupLast f.word (gathered k (settledParts k fields)) = some d ∧
        d.render = .ok y) ∧ Piece x.toList y.toList
          (form.isText = true ∨ ∃ d, lookupLast f.word fields = some d ∧ keepsSpacing d = true) := by
    rintro hform htext ⟨d,hd,hrender⟩
    obtain ⟨d',ds,x',y',ms,hd',hrow,hds⟩ := hg.list_items hk hslot hform hr
    rw [hd] at hd'
    cases hd'
    obtain rfl := list_of_render hrender hds
    have hregd := regularFields_mem hregs _ (lookupLast_mem hd)
    obtain ⟨y,hy,hpiece⟩ := lossless_row ((ih _ _ hd).2 ds rfl) hrow hregd hrender
    refine ⟨y,⟨_,hlookup,?_⟩,hpiece.congr (hsome hd htext).symm⟩
    rw [part_list hslot hform hd,hr]
    simpa [settled,settledEach_eq,Datum.asItems] using hy
  cases form with
  | text => exact ⟨x,htext rfl _ hx,(Piece.refl _).congr (by simp [Form.isText])⟩
  | flag =>
    obtain ⟨d,hd,hrender⟩ := hx
    exact ⟨x,⟨d,htext rfl d hd,hrender⟩,(Piece.refl _).congr (by simp [Form.isText])⟩
  | children => exact hlist rfl rfl hx
  | formatting => exact hlist rfl rfl hx
  | child =>
    obtain ⟨d,hd,hrender⟩ := hx
    have htruth : d.truth = true := by
      rcases render_ne_ok hrender with ⟨ds,rfl⟩ | ⟨fs,rfl,hne⟩
      · simp only [regularRecord,hg.kindOf,Bool.and_eq_true,List.all_eq_true] at hreg
        have hnolist := hreg.2 _ hslot
        dsimp only at hnolist
        rw [hd] at hnolist
        cases hnolist
      · simpa [Datum.truth] using hne
    obtain ⟨_,_,m,hkept⟩ := hg.child_built hk hslot hd htruth
    have hregd := regularFields_mem hregs _ (lookupLast_mem hd)
    obtain ⟨y,hy,hpiece⟩ := (ih _ _ hd).1 hkept hregd x hrender
    refine ⟨y,⟨_,hlookup,?_⟩,hpiece.congr (hsome hd rfl).symm⟩
    rw [part_child hslot hd,if_pos htruth]
    exact hy

theorem Grown.slot_piece (hregs : regularFields fields = true)
    (ih : ∀ word d, lookupLast word fields = some d → Lossless d ∧ ∀ ds, d = .list ds → ∀ e ∈ ds, Lossless e)
    (hslot : slot ∈ k.layout) (hsolid : ∀ f ∈ slotFields [slot], respaced k fields f = none) (hx : SlotSpells fields slot x) :
    ∃ y, SlotSpells (gathered k (settledParts k fields)) slot y ∧
      Piece x.toList y.toList (slotKeeps k fields (keepsFields fields) slot = true) := by
  have hshown := hg.shown_eq hk hreg hslot
  by_cases hs : slot.shown.holds fields = true
  · rw [SlotSpells.shown hs] at hx
    simp only [SlotSpells.shown (hshown.trans hs)]
    cases slot with
    | constant text shown => exact ⟨x,hx,(Piece.refl _).congr (by simp [slotKeeps])⟩
    | field form f shown =>
      have hr : respaced k fields f = none := hsolid f List.mem_cons_self
      obtain ⟨y,hy,hpiece⟩ := hg.slot_text hk hreg hregs ih hslot hr hx
      refine ⟨y,hy,hpiece.congr ?_⟩
      obtain ⟨d,_,_,_,hd,-⟩ := hg.slot hk hslot
      have hs' : shown.holds fields = true := hs
      cases form <;> simp [slotKeeps,Slot.shown,hs',hr,hd,lookupLast_keepsFields,Form.isText]
  · rw [SlotSpells.hidden hs] at hx
    subst hx
    exact ⟨"",(SlotSpells.hidden (hshown ▸ hs)).mpr rfl,(Piece.refl _).congr (by simp [slotKeeps,hs])⟩

/-- The texts of slots, with spacing set anew right before words. -/
theorem Grown.spread_piece (hregs : regularFields fields = true)
    (ih : ∀ word d, lookupLast word fields = some d → Lossless d ∧ ∀ ds, d = .list ds → ∀ e ∈ ds, Lossless e)
    (hspread : Spread k fields slots) (hin : slots ⊆ k.layout) {xs : List String}
    (hxs : List.Forall₂ (SlotSpells fields) slots xs) :
    ∃ ys, List.Forall₂ (SlotSpells (gathered k (settledParts k fields))) slots ys ∧
      Piece (String.join xs).toList (String.join ys).toList
        (slots.all (slotKeeps k fields (keepsFields fields)) = true) := by
  induction hspread generalizing xs with
  | nil =>
    cases hxs
    exact ⟨[],.nil,(Piece.refl _).congr (by simp)⟩
  | @solid slot rest hsolid _ ihs =>
    cases hxs with
    | cons hx hxs =>
      obtain ⟨y,hy,hpiece⟩ := hg.slot_piece hk hreg hregs ih (hin List.mem_cons_self) hsolid hx
      obtain ⟨ys,hys,hpieces⟩ := ihs (fun _ h => hin (List.mem_cons_of_mem _ h)) hxs
      refine ⟨y :: ys,.cons hy hys,?_⟩
      simp only [String.join_cons,String.toList_append]
      exact (hpiece.append hpieces).congr (by simp)
  | @hole f shown slot rest present hsome hvisible hword _ ihs =>
    cases hxs with
    | @cons _ x _ _ hx hxs =>
    cases hxs with
    | @cons _ w _ _ hw hxs =>
      have hslot : .field .formatting f shown ∈ k.layout := hin List.mem_cons_self
      have hslot' : slot ∈ k.layout := hin (List.mem_cons_of_mem _ List.mem_cons_self)
      obtain ⟨w',hw',hpiece⟩ := hg.slot_piece hk hreg hregs ih hslot' hword.solid hw
      obtain ⟨ys,hys,hpieces⟩ := ihs (fun _ h => hin (List.mem_cons_of_mem _ (List.mem_cons_of_mem _ h))) hxs
      have hsame : w' = w := String.toList_inj.mp (hpiece.of_same hword.keeps).symm
      subst hsame
      have hshown : shown.holds (gathered k (settledParts k fields)) = true :=
        (hg.shown_eq hk hreg hslot).trans hvisible
      obtain ⟨d,hd,hrender⟩ := (SlotSpells.shown hvisible).mp hx
      have hkeeps : slotKeeps k fields (keepsFields fields) (.field .formatting f shown) = (x == spacingText present) := by
        simp only [slotKeeps,Slot.shown,hvisible,Bool.not_true,Bool.false_or,hsome,hd,Option.getD_some,hrender]
      refine ⟨spacingText present :: w' :: ys,.cons ?_ (.cons hw' hys),?_⟩
      · refine (SlotSpells.shown hshown).mpr ⟨_,lookup_gathered (slot_field_mem hslot),?_⟩
        rw [part_list hslot rfl hd,hsome]
        exact render_spacing present
      · have hblank : ∀ c ∈ (spacingText present).toList, c = ' ' := by
          cases present <;> simp [spacingText]
        have hpiece := (Piece.hole hblank (hword.inked w' hw) : Piece (x.toList ++ w'.toList) _ _)
        simp only [String.join_cons,String.toList_append,← List.append_assoc]
        refine (hpiece.append hpieces).congr ?_
        simp only [List.all_cons,hkeeps,hword.keeps,Bool.true_and,Bool.and_eq_true,beq_iff_eq,String.toList_inj]

omit hreg in
theorem Grown.inked (hslot : .field form f shown ∈ k.layout) (hd : lookupLast f.word fields = some d)
    (hr : respacing k f d ≠ []) : d.Inked := by
  have hform : form.isText = true := by
    have hfit := layout_fits k _ hslot
    simp only [Slot.fits,Bool.and_eq_true,Bool.or_eq_true,Bool.not_eq_true',beq_iff_eq] at hfit
    rcases hfit.1.1.1.2 with hf | rfl
    · exact absurd (respacing_eq_nil hf d) hr
    · rfl
  exact (hg.admits hk hslot hform hd).inked hr

omit hreg in
/-- An alias stands after the word `as`, with spacing on both sides of it. -/
theorem Grown.alias_spread (hkind : k = .dottedAsName ∨ k = .nameAsName)
    (hlayout : k.layout = [.field form .value .always,.field .formatting .firstFormatting (.whenSet [.target]),
      .constant "as" (.whenSet [.target]),.field .formatting .secondFormatting (.whenSet [.target]),
      .field .text .target (.whenSet [.target])]) : Spread k fields k.layout := by
  have hslot : .field .text .target (.whenSet [.target]) ∈ k.layout := by simp [hlayout]
  obtain ⟨d,_,_,_,hd,-⟩ := hg.slot hk hslot
  have hquiet : ∀ f, f = .firstFormatting ∨ f = .secondFormatting → k.respaces f = false := by
    rintro f (rfl | rfl) <;> rcases hkind with rfl | rfl <;> rfl
  have hfirst : respaced k fields .firstFormatting = lookupLast .firstFormatting (respacing k .target d) := by
    have hafter : after .firstFormatting k.layout = [.constant "as" (.whenSet [.target]),
        .field .formatting .secondFormatting (.whenSet [.target])] ++ [.field .text .target (.whenSet [.target])] := by
      rw [hlayout]
      rfl
    unfold respaced
    rw [hafter,spacingOf_around _ _ (by simp [slotFields,hquiet]) rfl hd]
  have hsecond : respaced k fields .secondFormatting = lookupLast .secondFormatting (respacing k .target d) := by
    have hafter : after .secondFormatting k.layout = [] ++ [.field .text .target (.whenSet [.target])] := by
      rw [hlayout]
      rfl
    unfold respaced
    rw [hafter,spacingOf_around _ _ rfl rfl hd]
  have hvalue : ∀ f, f = .value ∨ f = .target → respaced k fields f = none := by
    rintro f (rfl | rfl) <;> exact respaced_eq_none (by decide)
  by_cases hnil : respacing k .target d = []
  · refine .of_solid (fun f hf => ?_)
    rw [hlayout] at hf
    simp only [slotFields,List.filterMap_cons,List.filterMap_nil,List.mem_cons,List.not_mem_nil,or_false] at hf
    rcases hf with rfl | rfl | rfl | rfl
    · exact hvalue _ (.inl rfl)
    · rw [hfirst,hnil]
      rfl
    · rw [hsecond,hnil]
      rfl
    · exact hvalue _ (.inr rfl)
  · obtain ⟨w,rfl,hw⟩ := hg.inked hk hslot hd hnil
    have hne : w ≠ "" := by
      rintro rfl
      simp at hw
    have hspacing : respacing k .target (.text w) = [(.firstFormatting,true),(.secondFormatting,true)] := by
      rcases hkind with rfl | rfl <;> simp only [respacing,if_neg hne]
    rw [hspacing] at hfirst hsecond
    have hshown : (Shown.whenSet [.target]).holds fields = true := by
      simp [Shown.holds,hd,Datum.truth,hne]
    rw [hlayout]
    refine .solid (by simp [slotFields,hvalue]) (.hole hfirst hshown ?_ (.hole hsecond hshown ?_ .nil))
    · refine ⟨by simp [slotKeeps],by simp [slotFields],fun x hx => ?_⟩
      rw [(SlotSpells.shown hshown).mp hx]
      exact ⟨'a',by decide,by decide⟩
    · refine ⟨by simp [slotKeeps],by simp [slotFields,hvalue],fun x hx => ?_⟩
      have hx' := (SlotSpells.shown hshown).mp hx
      rw [SlotText,hd] at hx'
      cases hx'
      exact hw

omit hreg in
/-- The delimiter of an exception has spacing set anew before it. -/
theorem Grown.except_spread (hkind : k = .exceptBranch) : Spread k fields k.layout := by
  subst hkind
  have hslot : .field .text .delimiter (.whenSet [.delimiter]) ∈ Kind.exceptBranch.layout := by decide
  obtain ⟨d,_,_,_,hd,-⟩ := hg.slot hk hslot
  have hspacing : ∀ f, f = .firstFormatting ∨ f = .secondFormatting →
      respaced .exceptBranch fields f = lookupLast f (respacing .exceptBranch .delimiter d) := by
    intro f hf
    unfold respaced
    rcases hf with rfl | rfl
    · exact congrArg _ (spacingOf_around [_,_] _ rfl rfl hd)
    · exact congrArg _ (spacingOf_around [] _ rfl rfl hd)
  have hthird : respaced .exceptBranch fields .thirdFormatting = none := respaced_none_of_after (by decide)
  have hfirst : respaced .exceptBranch fields .firstFormatting = none := by
    rw [hspacing _ (.inl rfl),lookupLast_eq_none]
    intro hf
    obtain ⟨x,hx,heq⟩ := List.mem_map.mp hf
    cases d with
    | text s =>
      simp only [respacing] at hx
      split at hx
      · simp only [List.mem_cons,List.not_mem_nil,or_false] at hx
        rcases hx with rfl | rfl <;> cases heq
      · split at hx
        · simp only [List.mem_cons,List.not_mem_nil,or_false] at hx
          rcases hx with rfl | rfl <;> cases heq
        · simp at hx
    | _ => simp [respacing] at hx
  have hothers : ∀ f, f ∉ [Field.firstFormatting,.secondFormatting,.thirdFormatting] →
      respaced .exceptBranch fields f = none := fun f hf => respaced_eq_none hf
  cases hsecond : respaced .exceptBranch fields .secondFormatting with
  | none =>
    refine .of_solid (fun f hf => ?_)
    by_cases hin : f ∈ [Field.firstFormatting,.secondFormatting,.thirdFormatting]
    · simp only [List.mem_cons,List.not_mem_nil,or_false] at hin
      rcases hin with rfl | rfl | rfl
      · exact hfirst
      · exact hsecond
      · exact hthird
    · exact hothers f hin
  | some present =>
    have hnil : respacing .exceptBranch .delimiter d ≠ [] := by
      intro hnil
      rw [hspacing _ (.inr rfl),hnil] at hsecond
      cases hsecond
    obtain ⟨w,rfl,hw⟩ := hg.inked hk hslot hd hnil
    have hne : w ≠ "" := by
      rintro rfl
      simp at hw
    have hshown : (Shown.whenSet [.delimiter]).holds fields = true := by
      simp [Shown.holds,hd,Datum.truth,hne]
    refine .solid (by simp [slotFields]) (.solid (by simp [slotFields,hfirst]) (.solid (by simp [slotFields,hothers])
      (.hole hsecond hshown ?_ (.of_solid ?_))))
    · refine ⟨by simp [slotKeeps],by simp [slotFields,hothers],fun x hx => ?_⟩
      have hx' := (SlotSpells.shown hshown).mp hx
      rw [SlotText,hd] at hx'
      cases hx'
      exact hw
    · intro f hf
      by_cases hin : f = .thirdFormatting
      · rw [hin]
        exact hthird
      · refine hothers f ?_
        revert hf hin
        cases f <;> decide

omit hreg in
theorem Grown.spread : Spread k fields k.layout := by
  by_cases hall : ∀ f ∈ slotFields k.layout, respaced k fields f = none
  · exact .of_solid hall
  have hsome : ∃ f, k.respaces f = true := by
    by_contra hno
    refine hall (fun f _ => respaced_none_of_after ?_)
    rw [List.all_eq_true]
    intro g _
    simpa using fun h => hno ⟨g,h⟩
  obtain ⟨f,hf⟩ := hsome
  unfold Kind.respaces at hf
  split at hf
  · exact hg.alias_spread hk (.inl rfl) rfl
  · exact hg.alias_spread hk (.inr rfl) rfl
  · exact hg.except_spread hk rfl
  · cases hf

end Slots

theorem Grown.recordLayout (hg : Grown p t a b n parent place fields k c) : CodeTree.recordLayout fields = .ok k.layout := by
  simp only [CodeTree.recordLayout,hg.named,hg.known]

theorem Grown.settled_named (hg : Grown p t a b n parent place fields k c) (hk : k ≠ .int) :
    lookupLast "type" (gathered k (settledParts k fields)) = some (.text k.word) := by
  have htexts : Field.type ∈ k.textFields := mem_foldl_add.mpr (.inl List.mem_cons_self)
  have htype : Field.type ∈ c.texts := hg.texts ▸ htexts
  obtain ⟨v,hv,hpart⟩ := hg.text_part hk htype
  rw [hg.type] at hv
  cases hv
  exact (lookup_gathered (List.mem_append_left _ (List.mem_append_left _ htexts))).trans (congrArg some hpart.symm)

theorem Grown.settled_layout (hg : Grown p t a b n parent place fields k c) (hk : k ≠ .int) :
    CodeTree.recordLayout (gathered k (settledParts k fields)) = .ok k.layout := by
  simp only [CodeTree.recordLayout,hg.settled_named hk,hg.known]

/-- An integer in its usual spelling is written back as it was. -/
theorem Grown.number_lossless (hg : Grown p t a b n parent place fields .int c) (hreg : regularRecord fields = true)
    (hx : (Datum.record fields).render = .ok x) : (settled (.record fields)).render = .ok x := by
  obtain ⟨layout,xs,hlayout,hxs,rfl⟩ := render_record.mp hx
  rw [hg.recordLayout] at hlayout
  cases hlayout
  obtain ⟨d,i,hd,hi,-⟩ := hg.number rfl
  simp only [regularRecord,hg.kindOf,hd,Bool.and_eq_true] at hreg
  have hvalue := hreg.1.1
  cases d with
  | text s =>
    have hs : (Text.integer? s).map toString = some s := by simpa using hvalue
    have hsi : toString i = s := by
      simp only [literalInteger,Value.ofDatum] at hi
      cases hn : Text.integer? s with
      | none => simp [hn] at hi
      | some j =>
        simp only [hn,Except.ok.injEq] at hi
        subst hi
        simpa [hn] using hs
    have hnumber : settledNumber fields = s := by
      unfold settledNumber
      rw [hd]
      simp only [Option.getD_some,hi,hsi]
    cases hxs with
    | @cons _ x _ _ hvalue hrest =>
    cases hrest
    have hx' : lookupLast "value" fields = some (.text x) := (SlotSpells.shown rfl).mp hvalue
    rw [hd] at hx'
    cases hx'
    simp only [settled,settledRecord,hg.kindOf,hnumber]
    refine render_record.mpr ⟨Kind.int.layout,[s],rfl,.cons ?_ .nil,rfl⟩
    exact (SlotSpells.shown rfl).mpr rfl
  | _ => simp at hvalue

/-- Nodes built from data have the text of the data, up to spacing that is set anew. -/
theorem lossless_built (d : Datum) : Lossless d := by
  induction d using Datum.induct_built with
  | other d hd => exact fun _ _ _ _ _ _ _ h => (h.not_built hd).elim
  | record fields ih =>
    intro p a b n parent place t h hreg x hx
    obtain ⟨_,k,c,heq,hg⟩ := h.grown
    cases heq
    simp only [Datum.regular,Bool.and_eq_true] at hreg
    have hkeeps : keepsSpacing (.record fields) = k.layout.all (slotKeeps k fields (keepsFields fields)) := by
      simp only [keepsSpacing,hg.kindOf]
    rw [hkeeps]
    by_cases hint : k = .int
    · subst hint
      exact ⟨x,hg.number_lossless hreg.1 hx,(Piece.refl _).congr (by simp [Kind.layout,slotKeeps])⟩
    · obtain ⟨layout,xs,hlayout,hxs,rfl⟩ := render_record.mp hx
      rw [hg.recordLayout] at hlayout
      cases hlayout
      obtain ⟨ys,hys,hpiece⟩ := hg.spread_piece hint hreg.1 hreg.2
        (fun word d hd => ih hd) (hg.spread hint) (List.Subset.refl _) hxs
      refine ⟨_,?_,hpiece⟩
      rw [settled_record hg.kindOf hint]
      refine render_record.mpr ⟨k.layout,ys,?_,hys,rfl⟩
      exact hg.settled_layout hint

theorem snapshot_list {l : ListId} {c : ListCell} (hl : t.lists[l.index]? = some c) (hc : c.flavour = .nodes)
    (hrow : Kept (buildEach ds parent place) p a b c.items t) (hb : b.nodes ≤ t.nodes.size) :
    snapshot (.list l) t = .ok (.list (ds.map settled)) := by
  unfold snapshot
  simp only [Read.bind_ok,Read.depth_ok,exists_eq_left']
  unfold Store.depth
  simp only [snapshotAt,Read.bind_ok,Read.list_ok]
  refine ⟨c,hl,?_⟩
  rw [if_pos (by rw [hc]; rfl)]
  simp only [Read.bind_ok,Read.pure_ok]
  exact ⟨_,snapshot_row (fun d _ => snapshot_built d) hrow (by omega),rfl⟩

/-- The text of a list of nodes that was built from regular data. It is always there, and it is the
text of the data exactly when the spacing that is set anew was like that before. -/
theorem text_buildList_eq_iff {d : Datum} {parent : Value} {place : Option Attr} {p : Parser} {s t : Store}
    {l : ListId} {x : String} (hbuild : buildList d parent place p s = .ok l t) (hregular : d.regular = true)
    (hrender : d.render = .ok x) : ∃ y, textOf (.list l) t = .ok y ∧ (y = x ↔ keepsSpacing d = true) := by
  unfold buildList at hbuild
  obtain ⟨ms,u,hitems,hlist⟩ := Edit.bind_ok.mp hbuild
  obtain ⟨rfl,rfl⟩ := Edit.newList_ok.mp hlist
  have hkept := (Kept.of_run hitems).agree ((Store.grows_addList u ⟨.nodes,ms,parent,place,[]⟩).agree _)
  obtain ⟨ds,hrow,hds⟩ := hkept.items
  obtain rfl := list_of_render hrender hds
  have hsnapshot : snapshot (.list ⟨u.lists.size⟩) (u.addList ⟨.nodes,ms,parent,place,[]⟩) =
      .ok (.list (ds.map settled)) := by
    refine snapshot_list (c := ⟨.nodes,ms,parent,place,[]⟩) ?_ rfl hrow ?_
    · rw [Store.addList_get,if_pos rfl]
    · exact Nat.le_refl u.nodes.size
  obtain ⟨y,hy,hpiece⟩ := lossless_row (fun d _ => lossless_built d) hrow hregular hrender
  refine ⟨y,?_,?_⟩
  · simp only [textOf,Read.bind_ok,Read.lift_ok]
    exact ⟨_,hsnapshot,hy⟩
  · rw [← String.toList_inj]
    exact hpiece.same_iff

/-- The module `a  as b` of an import, with two blanks before `as`. -/
def wideAlias : Datum :=
  .list [.record [("type",.text "dotted_as_name"),
    ("value",.list [.record [("type",.text "name"), ("value",.text "a")]]),
    ("first_formatting",.list [.record [("type",.text "space"), ("value",.text "  ")]]),
    ("second_formatting",.list [spaceDatum]), ("target",.text "b")]]

theorem text_wideAlias_ne : wideAlias.render = .ok "a  as b" ∧
    ∃ l t y, buildList wideAlias .none none (fun _ => .ok .null) .empty = .ok l t ∧
      textOf (.list l) t = .ok y ∧ y ≠ "a  as b" := by
  have hrender : wideAlias.render = .ok "a  as b" := rfl
  have hsucceeds : (buildList wideAlias .none none).succeeds (fun _ => .ok .null) .empty = true := by
    decide +kernel
  have hspacing : keepsSpacing wideAlias = false := by decide +kernel
  obtain ⟨l,t,hbuild⟩ := Edit.succeeds_iff.mp hsucceeds
  obtain ⟨y,hy,hiff⟩ := text_buildList_eq_iff hbuild (by decide +kernel) hrender
  refine ⟨hrender,l,t,y,hbuild,hy,fun heq => ?_⟩
  rw [hspacing] at hiff
  cases hiff.mp heq

end CodeTree
