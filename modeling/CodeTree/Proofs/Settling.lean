import CodeTree.Separators
import CodeTree.Proofs.Planting

/-! # Snapshots of what was built

The data that a node built from a record is written back as. It is the record again, reduced to the
fields of its layout, with integers and operators in order and some spacing set anew.
-/
namespace CodeTree
variable {present : Bool} {d : Datum} {f g : Field} {part : Field → Datum} {form : Form} {k : Kind}
  {fields : List (String × Datum)} {fs : List Field} {slots : List Slot} {l : ListId} {a b : Mark} {fuel : Nat}
  {c : NodeCell} {n : NodeId} {place : Option Attr} {p : Parser} {shown : Shown} {t s : Store} {v parent : Value}

section Data

/-- The fields of a kind, by what they hold. -/
def Kind.textFields (k : Kind) : List Field := k.layout.foldl (fun fs slot => slot.add Form.isText fs) [.type]
def Kind.listFields (k : Kind) : List Field := k.layout.foldl (fun fs slot => slot.add Form.isList fs) []
def Kind.childFields (k : Kind) : List Field := k.layout.foldl (fun fs slot => slot.add Form.isChild fs) []

/-- The form of a field among slots. -/
def formIn (f : Field) : List Slot → Option Form
  | [] => none
  | .field form g _ :: rest => if g = f then some form else formIn f rest
  | .constant _ _ :: rest => formIn f rest

/-- A node of a kind as data: texts first, then lists, then children. -/
def gathered (k : Kind) (part : Field → Datum) : List (String × Datum) :=
  (k.textFields ++ k.listFields ++ k.childFields).map (fun f => (f.word,part f))

/-- The slots after the one of a field. -/
def after (f : Field) : List Slot → List Slot
  | [] => []
  | .field _ g _ :: rest => if g = f then rest else after f rest
  | .constant _ _ :: rest => after f rest

/-- Whether filling the slots after it sets the spacing of a field anew, and to what. -/
def respaced (k : Kind) (fields : List (String × Datum)) (f : Field) : Option Bool :=
  lookupLast f (spacingOf k fields (after f k.layout))

/-- The spacing that is set anew, as data. -/
def spacing (present : Bool) : Datum := .list (if present then [spaceDatum] else [])

/-- What a datum that a list of nodes is built from comes down to. -/
def Datum.asItems : Datum → Datum
  | .list ds => .list ds
  | _ => .list []

/-- What a field is written back as, given what its datum is written back as. -/
def settledPart (k : Kind) (fields : List (String × Datum)) (parts : List (String × Datum)) (f : Field) : Datum :=
  match formIn f k.layout with
  | some .child =>
    if ((lookupLast f.word fields).map Datum.truth).getD false then (lookupLast f.word parts).getD .null
    else .record []
  | some .children | some .formatting =>
    match respaced k fields f with
    | some present => spacing present
    | none => ((lookupLast f.word parts).getD .null).asItems
  | _ => (k.keeps f (.ofDatum ((lookupLast f.word fields).getD .null))).toDatum?.getD .null

/-- The kind that a record names. -/
def kindOf (fields : List (String × Datum)) : Option Kind :=
  match lookupLast "type" fields with
  | some (.text word) => Kind.ofWord? word
  | _ => none

/-- The text that an integer literal is written back as. -/
def settledNumber (fields : List (String × Datum)) : String :=
  match literalInteger (.ofDatum ((lookupLast "value" fields).getD .null)) with
  | .ok i => toString i
  | .error _ => ""

def settledRecord (fields parts : List (String × Datum)) : Datum :=
  match kindOf fields with
  | none => .null
  | some .int => .record [("type",.text "int"),("value",.text (settledNumber fields)),("section",.text "number")]
  | some k => .record (gathered k (settledPart k fields parts))

mutual

/-- What a datum is written back as once a node has been built from it. -/
def settled : Datum → Datum
  | .record fields => settledRecord fields (settledFields fields)
  | .list ds => .list (settledEach ds)
  | d => d

def settledEach : List Datum → List Datum
  | [] => []
  | d :: ds => settled d :: settledEach ds

def settledFields : List (String × Datum) → List (String × Datum)
  | [] => []
  | (k, d) :: rest => (k,settled d) :: settledFields rest

end

/-- What the fields of a record are written back as. -/
abbrev settledParts (k : Kind) (fields : List (String × Datum)) : Field → Datum := settledPart k fields (settledFields fields)

theorem settledEach_eq (ds : List Datum) : settledEach ds = ds.map settled := by
  induction ds with
  | nil => rfl
  | cons d ds ih => simp [settledEach,ih]

theorem lookupLast_settledFields (word : String) (fields : List (String × Datum)) :
    lookupLast word (settledFields fields) = (lookupLast word fields).map settled :=
  lookupLast_each rfl (fun _ _ _ => rfl) word fields

theorem Field.mem_all (f : Field) : f ∈ Field.all := by
  cases f <;> decide

theorem Field.ofWord_word (f : Field) : Field.ofWord? f.word = some f := by
  have hall : ∀ f ∈ Field.all, Field.ofWord? f.word = some f := by decide +kernel
  exact hall f f.mem_all

theorem Field.word_injective (h : f.word = g.word) : f = g := by
  have hg := g.ofWord_word
  rw [← h,f.ofWord_word] at hg
  exact Option.some.inj hg

theorem lookupLast_map_word (hf : f ∈ fs) : lookupLast f.word (fs.map (fun g => (g.word,part g))) = some (part f) := by
  induction fs with
  | nil => simp at hf
  | cons g fs ih =>
    simp only [List.map_cons,lookupLast]
    by_cases hfs : f ∈ fs
    · rw [ih hfs]
    · cases hl : lookupLast f.word (fs.map (fun g => (g.word,part g))) with
      | some d =>
        obtain ⟨g',hg',heq⟩ := List.mem_map.mp (lookupLast_mem hl)
        simp only [Prod.mk.injEq] at heq
        exact absurd (Field.word_injective heq.1 ▸ hg') hfs
      | none =>
        rcases List.mem_cons.mp hf with rfl | hf
        · simp
        · exact absurd hf hfs

theorem lookup_gathered (hf : f ∈ k.textFields ++ k.listFields ++ k.childFields) :
    lookupLast f.word (gathered k part) = some (part f) := lookupLast_map_word hf

theorem mem_addField : f ∈ addField g fs ↔ f ∈ fs ∨ f = g := by
  unfold addField
  split
  · next hg =>
    constructor
    · exact .inl
    · rintro (hf | rfl)
      · exact hf
      · simpa using hg
  · simp

/-- The fields of one sort are those of the slots of that sort. -/
theorem mem_foldl_add {sort : Form → Bool} : f ∈ slots.foldl (fun fs slot => slot.add sort fs) fs ↔
      f ∈ fs ∨ ∃ form shown, sort form = true ∧ .field form f shown ∈ slots := by
  induction slots generalizing fs with
  | nil => simp
  | cons slot slots ih =>
    rw [List.foldl_cons,ih]
    cases slot with
    | constant text shown => simp [Slot.add]
    | field form g shown =>
      have hadd : f ∈ (Slot.field form g shown).add sort fs ↔ f ∈ fs ∨ sort form = true ∧ f = g := by
        rw [Slot.add]
        split
        · next hs => rw [mem_addField,and_iff_right hs]
        · next hs => exact (or_iff_left (fun h => hs h.1)).symm
      rw [hadd]
      constructor
      · rintro ((hf | ⟨hs,rfl⟩) | ⟨form',shown',hs,hm⟩)
        · exact .inl hf
        · exact .inr ⟨form,shown,hs,List.mem_cons_self⟩
        · exact .inr ⟨form',shown',hs,List.mem_cons_of_mem _ hm⟩
      · rintro (hf | ⟨form',shown',hs,hm⟩)
        · exact .inl (.inl hf)
        · rcases List.mem_cons.mp hm with heq | hm
          · cases heq
            exact .inl (.inr ⟨hs,rfl⟩)
          · exact .inr ⟨form',shown',hs,hm⟩

theorem formIn_eq (hnd : (slotFields slots).Nodup) (h : .field form f shown ∈ slots) : formIn f slots = some form := by
  induction slots with
  | nil => simp at h
  | cons slot slots ih =>
    cases slot with
    | constant text shown' => exact ih hnd (by simpa using h)
    | field form' g shown' =>
      obtain ⟨hg,hnd⟩ := List.nodup_cons.mp hnd
      rcases List.mem_cons.mp h with heq | h
      · cases heq
        simp [formIn]
      · have hf := slotFields_mem h
        have hne : g ≠ f := by
          rintro rfl
          exact hg hf
        simp only [formIn,if_neg hne]
        exact ih hnd h

theorem formIn_mem (h : formIn f slots = some form) : ∃ shown, .field form f shown ∈ slots := by
  induction slots with
  | nil => cases h
  | cons slot slots ih =>
    cases slot with
    | constant text shown =>
      obtain ⟨shown',hm⟩ := ih h
      exact ⟨shown',List.mem_cons_of_mem _ hm⟩
    | field form' g shown =>
      by_cases hg : g = f
      · simp only [formIn,if_pos hg,Option.some.injEq] at h
        subst h
        subst hg
        exact ⟨shown,List.mem_cons_self⟩
      · simp only [formIn,if_neg hg] at h
        obtain ⟨shown',hm⟩ := ih h
        exact ⟨shown',List.mem_cons_of_mem _ hm⟩

/-- The field of every slot is among the fields that are written back. -/
theorem slot_field_mem (h : .field form f shown ∈ k.layout) : f ∈ k.textFields ++ k.listFields ++ k.childFields := by
  simp only [List.mem_append,Kind.textFields,Kind.listFields,Kind.childFields,mem_foldl_add]
  cases form with
  | text | flag => exact .inl (.inl (.inr ⟨_,_,rfl,h⟩))
  | child => exact .inr (.inr ⟨_,_,rfl,h⟩)
  | children | formatting => exact .inl (.inr (.inr ⟨_,_,rfl,h⟩))

theorem Sections.respaced (h : Sections p t n k fields c slots a b) (hf : f ∉ slotFields slots)
    (hp : lookupLast f (spacingOf k fields slots) = some present) :
    ∃ w x y, c.stored? (.field f) = some w ∧ a ≤ x ∧ y ≤ b ∧ Spaces t n x y present w := by
  induction h with
  | nil a => simp [spacingOf,slotFields,lookupLast] at hp
  | constant text shown _ ih => exact ih hf hp
  | @field rest a e b form g d shown found hle held spaces admits more ih =>
    have hrest : f ∉ slotFields rest := fun h => hf (List.mem_cons_of_mem _ h)
    have hspacing : spacingOf k fields (.field form g shown :: rest) = respacing k g d ++ spacingOf k fields rest := by
      simp [spacingOf,slotFields,found]
    rw [hspacing,lookupLast_append] at hp
    cases hr : lookupLast f (spacingOf k fields rest) with
    | some present' =>
      rw [hr,Option.some_or] at hp
      obtain ⟨w,x,y,hw,hx,hy,hs⟩ := ih hrest (hr.trans hp)
      exact ⟨w,x,y,hw,Mark.le_trans hle hx,hy,hs⟩
    | none =>
      rw [hr,Option.none_or] at hp
      obtain ⟨w,hw,hs⟩ := spaces.each _ (lookupLast_mem hp) ⟨hrest,lookupLast_eq_none.mp hr⟩
      exact ⟨w,a,e,hw,Mark.le_refl a,more.le,hs⟩

/-- What a slot holds at the end: what it was filled with, or the spacing that came later. -/
theorem Sections.slot (h : Sections p t n k fields c slots a b) (hnd : (slotFields slots).Nodup)
    (hslot : .field form f shown ∈ slots) :
    ∃ d v x y, lookupLast f.word fields = some d ∧ c.stored? (.field f) = some v ∧ a ≤ x ∧ y ≤ b ∧
      match lookupLast f (spacingOf k fields (after f slots)) with
      | none => Holds p t n k form f d x y v
      | some present => Spaces t n x y present v := by
  induction h with
  | nil a => simp at hslot
  | constant text shown' _ ih => exact ih hnd (by simpa using hslot)
  | @field rest a e b form' g d shown' found hle held spaces admits more ih =>
    obtain ⟨hg,hnd⟩ := List.nodup_cons.mp hnd
    rcases List.mem_cons.mp hslot with heq | hslot
    · cases heq
      simp only [after,if_true]
      cases hr : lookupLast f (spacingOf k fields rest) with
      | none =>
        obtain ⟨v,hv,hh⟩ := held (lookupLast_eq_none.mp hr)
        exact ⟨d,v,a,e,found,hv,Mark.le_refl a,more.le,hh⟩
      | some present =>
        obtain ⟨w,x,y,hw,hx,hy,hs⟩ := more.respaced hg hr
        exact ⟨d,w,x,y,found,hw,Mark.le_trans hle hx,hy,hs⟩
    · have hf := slotFields_mem hslot
      have hne : g ≠ f := by
        rintro rfl
        exact hg hf
      obtain ⟨d',v,x,y,hd,hv,hx,hy,hh⟩ := ih hnd hslot
      simp only [after,if_neg hne]
      exact ⟨d',v,x,y,hd,hv,Mark.le_trans hle hx,hy,hh⟩

end Data

section Reading
variable {α β : Type}

theorem Read.mapM_ok {f : α → Read β} {g : α → β} {xs : List α} (h : ∀ x ∈ xs, f x s = .ok (g x)) :
    xs.mapM f s = .ok (xs.map g) := by
  induction xs with
  | nil => rfl
  | cons x xs ih =>
    rw [List.mapM_cons]
    simp only [Read.bind_ok,Read.pure_ok,List.map_cons]
    exact ⟨g x,h x List.mem_cons_self,xs.map g,ih (List.forall_mem_cons.mp h).2,rfl⟩

theorem Value.toDatum_ofDatum (d : Datum) : (Value.ofDatum d).toDatum? = some d := by
  cases d <;> rfl

theorem members_list {c : ListCell} (h : s.lists[l.index]? = some c) : members (.list l) s = .ok c.items := by
  simp only [members,membersWith,itemsWith,Read.bind_ok,Read.list_ok,Read.pure_ok]
  exact ⟨c,h,rfl⟩

theorem members_view {w : ViewId} {v : ViewCell} {c : ListCell} (hv : s.views[w.index]? = some v) (ht : v.target = .list l)
    (h : s.lists[l.index]? = some c) : members (.view w) s = .ok c.items := by
  simp only [members,membersWith,Read.bind_ok,Read.view_ok]
  refine ⟨v,hv,?_⟩
  rw [ht]
  exact members_list h

theorem Attr.ofWord_word (f : Field) : Attr.ofWord f.word = .field f := by
  unfold Attr.ofWord
  rw [Field.ofWord_word]

theorem nodeProperties_field (f : Field) : nodeProperties.lookup f.word = none := by
  cases f <;> rfl

/-- The attribute of a node that stores it under the name of a field. -/
theorem attr_stored (hc : s.nodes[n.index]? = some c) (hv : c.stored? (.field f) = some v) :
    attr (.node n) f.word s = .ok v := by
  unfold attr
  simp only [Read.bind_ok,Read.depth_ok,exists_eq_left']
  unfold Store.depth attrAt
  rw [nodeProperties_field,Attr.ofWord_word]
  simp only [Read.bind_ok,Read.node_ok]
  refine ⟨c,hc,?_⟩
  rw [NodeCell.own_field,hv]
  rfl

theorem HoldsList.members (h : HoldsList p t n k f d a b v) :
    ∃ ms e, e ≤ b ∧ Kept (buildItems d (.node n) (some (.field f))) p a e ms t ∧ CodeTree.members v t = .ok ms := by
  obtain ⟨ms,e,heb,hk,hlt,hl,hv⟩ := h
  refine ⟨ms,e,heb,hk,?_⟩
  cases hform : k.viewForm f with
  | none =>
    rw [hform] at hv
    subst hv
    exact members_list (l := ⟨e.lists⟩) hl
  | some form =>
    rw [hform] at hv
    obtain ⟨u,w,shown,style,rfl,-,-,hview,-,-⟩ := hv
    exact members_view hview rfl hl

end Reading

section Snapshots

/-- A node that was built from a datum and left alone is written back as the settled datum. -/
def Settles (d : Datum) : Prop :=
  ∀ ⦃p : Parser⦄ ⦃a b : Mark⦄ ⦃n : NodeId⦄ ⦃parent : Value⦄ ⦃place : Option Attr⦄ ⦃t : Store⦄ ⦃fuel : Nat⦄,
    Kept (build d parent place) p a b n t → b.nodes ≤ a.nodes + fuel → snapshotAt fuel (.node n) t = .ok (settled d)

/-- The nodes of a row are written back one by one. -/
theorem snapshot_row {ds : List Datum} (ih : ∀ d ∈ ds, Settles d) {ms : List Value}
    (h : Kept (buildEach ds parent place) p a b ms t) (hf : b.nodes ≤ a.nodes + fuel) :
    ms.mapM (snapshotAt fuel) t = .ok (ds.map settled) := by
  induction ds generalizing a ms with
  | nil =>
    cases h.nil
    rfl
  | cons d ds ihds =>
    obtain ⟨n,rest,e,rfl,hd,hds,hae,heb⟩ := h.cons
    rw [List.mapM_cons]
    simp only [Read.bind_ok,Read.pure_ok,List.map_cons]
    refine ⟨settled d,ih d List.mem_cons_self hd ?_,ds.map settled,?_,rfl⟩
    · exact Nat.le_trans heb.1 hf
    · refine ihds (List.forall_mem_cons.mp ih).2 hds ?_
      exact Nat.le_trans hf (Nat.add_le_add_right hae.1 fuel)

theorem snapshot_fields (fuel : Nat) (part : Field → Datum) (hc : t.nodes[n.index]? = some c) (hk : c.kind ≠ .int)
    (htexts : ∀ f ∈ c.texts, ∃ v, c.stored? (.field f) = some v ∧ v.toDatum?.getD .null = part f)
    (hlists : ∀ f ∈ c.lists, ∃ v ms parts, c.stored? (.field f) = some v ∧ members v t = .ok ms ∧
      ms.mapM (snapshotAt fuel) t = .ok parts ∧ .list parts = part f)
    (hchildren : ∀ f ∈ c.children, ∃ v, c.stored? (.field f) = some v ∧
      (isAbsent v t = .ok true ∧ part f = .record [] ∨ ∃ m, v = .node m ∧ snapshotAt fuel v t = .ok (part f))) :
    snapshotAt (fuel + 1) (.node n) t =
      .ok (.record ((c.texts ++ c.lists ++ c.children).map (fun f => (f.word,part f)))) := by
  simp only [snapshotAt,Read.bind_ok,Read.node_ok]
  refine ⟨c,hc,?_⟩
  rw [if_neg (by simpa using hk)]
  simp only [Read.bind_ok,Read.pure_ok,List.map_append]
  refine ⟨_,Read.mapM_ok (fun f hf => ?_),_,Read.mapM_ok (fun f hf => ?_),_,Read.mapM_ok (fun f hf => ?_),rfl⟩
  · obtain ⟨v,hv,hpart⟩ := htexts f hf
    simp only [Read.bind_ok,Read.pure_ok]
    exact ⟨v,look_stored hc hv,by rw [hpart]⟩
  · obtain ⟨v,ms,parts,hv,hms,hparts,hpart⟩ := hlists f hf
    simp only [Read.bind_ok,Read.pure_ok]
    exact ⟨v,look_stored hc hv,ms,hms,parts,hparts,by rw [hpart]⟩
  · obtain ⟨v,hv,hpart⟩ := hchildren f hf
    simp only [Read.bind_ok]
    refine ⟨v,look_stored hc hv,?_⟩
    rcases hpart with ⟨habsent,hpart⟩ | ⟨m,rfl,hpart⟩
    · exact ⟨true,habsent,by rw [hpart]; rfl⟩
    · refine ⟨false,rfl,?_⟩
      simp only [Bool.false_eq_true,if_false,Read.bind_ok,Read.pure_ok]
      exact ⟨_,hpart,rfl⟩

theorem Value.absent {P : Prop} (h : v = .none ∧ P) : isAbsent v t = .ok true ∧ P := by
  obtain ⟨rfl,h⟩ := h
  exact ⟨rfl,h⟩

theorem snapshot_space {m : NodeId} (h : t.nodes[m.index]? = some (spaceCell parent place)) (fuel : Nat) :
    snapshotAt (fuel + 1) (.node m) t = .ok spaceDatum := by
  refine snapshot_fields fuel (fun f => if f = .type then .text "space" else .text " ") h (by simp [spaceCell]) ?_
    (by simp [spaceCell]) (by simp [spaceCell])
  intro f hf
  simp only [spaceCell,List.mem_cons,List.not_mem_nil,or_false] at hf
  rcases hf with rfl | rfl
  · exact ⟨_,rfl,rfl⟩
  · exact ⟨_,rfl,rfl⟩

theorem Spaces.snapshot (h : Spaces t n a b present v) (hf : b.nodes ≤ a.nodes + fuel) :
    ∃ ms parts, members v t = .ok ms ∧ ms.mapM (snapshotAt fuel) t = .ok parts ∧ .list parts = spacing present := by
  obtain ⟨l,items,rfl,-,-,hl,hitems⟩ := h
  refine ⟨items,?_⟩
  cases present with
  | false =>
    cases hitems
    exact ⟨[],members_list hl,rfl,rfl⟩
  | true =>
    obtain ⟨m,rfl,hma,hmb,hm⟩ := hitems
    obtain _ | fuel := fuel
    · omega
    refine ⟨[spaceDatum],members_list hl,?_,rfl⟩
    simp only [List.mapM_cons,List.mapM_nil,Read.bind_ok,Read.pure_ok]
    exact ⟨_,snapshot_space hm fuel,_,rfl,rfl⟩

theorem spacingOf_eq_nil (h : (slotFields slots).all (fun f => !k.respaces f) = true) : spacingOf k fields slots = [] := by
  simp only [spacingOf,List.flatMap_eq_nil_iff]
  intro f hf
  have hr : k.respaces f = false := by simpa using List.all_eq_true.mp h f hf
  cases lookupLast f.word fields with
  | none => rfl
  | some d => exact respacing_eq_nil hr d

/-- Only an alias and the delimiter of an exception set spacing that no slot sets again. -/
theorem respaced_cases (h : respaced k fields f = some present) : k = .exceptBranch ∧ f = .secondFormatting ∨
      (k = .dottedAsName ∨ k = .nameAsName) ∧ (f = .firstFormatting ∨ f = .secondFormatting) := by
  have hf := spacingOf_fields (List.mem_map_of_mem (lookupLast_mem h))
  have hnone : ∀ slots, after f k.layout = slots → (slotFields slots).all (fun f => !k.respaces f) = true → False := by
    intro slots hslots hall
    unfold respaced at h
    rw [hslots,spacingOf_eq_nil hall] at h
    cases h
  simp only [List.mem_cons,List.not_mem_nil,or_false] at hf
  by_cases hexcept : k = .exceptBranch
  · subst hexcept
    rcases hf with rfl | rfl | rfl
    · obtain ⟨g,-,d,-,hg⟩ := mem_spacingOf (lookupLast_mem h)
      unfold respacing at hg
      split at hg
      case h_1 => contradiction
      case h_2 => contradiction
      case h_3 =>
        split at hg
        · simp at hg
        · split at hg <;> simp at hg
      case h_4 => cases hg
    · exact .inl ⟨rfl,rfl⟩
    · exact (hnone _ rfl (by decide)).elim
  · by_cases halias : k = .dottedAsName ∨ k = .nameAsName
    · refine .inr ⟨halias,?_⟩
      rcases hf with rfl | rfl | rfl
      · exact .inl rfl
      · exact .inr rfl
      · rcases halias with rfl | rfl
        · exact (hnone _ rfl (by decide)).elim
        · exact (hnone _ rfl (by decide)).elim
    · rw [not_or] at halias
      refine (hnone _ rfl (List.all_eq_true.mpr (fun g _ => ?_))).elim
      unfold Kind.respaces
      split
      · exact absurd rfl halias.1
      · exact absurd rfl halias.2
      · exact absurd rfl hexcept
      · rfl

theorem respaced_formatting (hslot : .field form f shown ∈ k.layout) (h : respaced k fields f = some present) :
    form = .formatting := by
  have hf := spacingOf_fields (List.mem_map_of_mem (lookupLast_mem h))
  have hfit := layout_fits k _ hslot
  simp only [Slot.fits,Bool.and_eq_true,Bool.or_eq_true,beq_iff_eq] at hfit
  rcases hfit.2 with hn | hform
  · rw [List.contains_iff_mem.mpr hf] at hn
    cases hn
  · exact hform

/-- The kind of a built node is the one that its record names. -/
theorem kindOf_of_named (h : lookupLast "type" fields = some (.text k.word)) (hknown : Kind.ofWord? k.word = some k) :
    kindOf fields = some k := by
  unfold kindOf
  rw [h]
  exact hknown

theorem Planted.kindOf (hg : Planted p t a b n parent place fields k c) :
    CodeTree.kindOf fields = some k := kindOf_of_named hg.named hg.known

theorem settled_record (hkind : kindOf fields = some k) (hint : k ≠ .int) :
    settled (.record fields) = .record (gathered k (settledParts k fields)) := by
  simp only [settled,settledRecord,hkind]

section Fields
variable {k : Kind} {fields : List (String × Datum)} {form : Form} {f : Field} {shown : Shown} {d : Datum}

theorem part_child (hslot : .field .child f shown ∈ k.layout) (hd : lookupLast f.word fields = some d) :
    settledParts k fields f = if d.truth then settled d else .record [] := by
  unfold settledParts settledPart
  rw [formIn_eq (layout_nodup k) hslot,lookupLast_settledFields,hd]
  rfl

theorem part_list (hslot : .field form f shown ∈ k.layout) (hform : form.isList = true)
    (hd : lookupLast f.word fields = some d) : settledParts k fields f =
      match respaced k fields f with
      | some present => spacing present
      | none => (settled d).asItems := by
  unfold settledParts settledPart
  rw [formIn_eq (layout_nodup k) hslot,lookupLast_settledFields,hd]
  cases form <;> first | rfl | cases hform

theorem part_type (h : lookupLast "type" fields = some (.text k.word)) : settledParts k fields .type = .text k.word := by
  have hword : lookupLast Field.type.word fields = some (.text k.word) := h
  have hkeeps : (k.keeps .type (.ofDatum (.text k.word))).toDatum?.getD .null = .text k.word := by
    rw [Kind.keeps_eq (fun _ h => by cases h)]
    rfl
  unfold settledParts settledPart
  rw [hword]
  cases hin : formIn .type k.layout with
  | none => exact hkeeps
  | some form =>
    obtain ⟨shown,hslot⟩ := formIn_mem hin
    cases type_slot hslot
    exact hkeeps

/-- What a slot of a node holds in the end: what it was filled with, or the spacing that was set later. -/
def Slotted (p : Parser) (t : Store) (n : NodeId) (k : Kind) (fields : List (String × Datum)) (form : Form) (f : Field)
    (d : Datum) (a b : Mark) (v : Value) : Prop :=
  match respaced k fields f with
  | none => Holds p t n k form f d a b v
  | some present => Spaces t n a b present v

section Slots
variable {p : Parser} {t : Store} {n : NodeId} {a b : Mark} {v : Value} {fuel : Nat}
  (h : Slotted p t n k fields form f d a b v) (hslot : .field form f shown ∈ k.layout)
  (hd : lookupLast f.word fields = some d)
include h hslot hd

theorem Slotted.text_part (hform : form.isText = true) :
    v.toDatum?.getD .null = settledParts k fields f := by
  unfold Slotted at h
  cases hr : respaced k fields f with
  | some present =>
    cases respaced_formatting hslot hr
    cases hform
  | none =>
    rw [hr] at h
    have heq : v = k.keeps f (.ofDatum d) := by cases form <;> first | exact h | cases hform
    unfold settledParts settledPart
    rw [formIn_eq (layout_nodup k) hslot,hd,heq]
    cases form <;> first | rfl | cases hform

theorem Slotted.list_part (hform : form.isList = true) (hfuel : b.nodes ≤ a.nodes + fuel)
    (ih : ∀ ds, d = .list ds → ∀ e ∈ ds, Settles e) :
    ∃ ms parts, members v t = .ok ms ∧ ms.mapM (snapshotAt fuel) t = .ok parts ∧
      Datum.list parts = settledParts k fields f := by
  unfold Slotted at h
  rw [part_list hslot hform hd]
  cases hr : respaced k fields f with
  | some present =>
    rw [hr] at h
    exact h.snapshot hfuel
  | none =>
    rw [hr] at h
    have hlist : HoldsList p t n k f d a b v := by cases form <;> first | exact h | cases hform
    obtain ⟨ms,e,hey,hkept,hms⟩ := hlist.members
    obtain ⟨ds,hrow,hds⟩ := hkept.items
    have he := Nat.le_trans hey.1 hfuel
    rcases hds with rfl | ⟨rfl,hds⟩
    · refine ⟨ms,ds.map settled,hms,snapshot_row (ih ds rfl) hrow he,?_⟩
      simp [settled,settledEach_eq,Datum.asItems]
    · refine ⟨ms,[],hms,snapshot_row (by simp) hrow he,?_⟩
      rcases hds with rfl | rfl <;> rfl

theorem Slotted.child_part (hform : form.isChild = true) (hfuel : b.nodes ≤ a.nodes + fuel) (ih : Settles d) :
    v = .none ∧ settledParts k fields f = .record [] ∨
      ∃ m, v = .node m ∧ snapshotAt fuel v t = .ok (settledParts k fields f) := by
  obtain rfl : form = .child := by simpa [Form.isChild] using hform
  unfold Slotted at h
  cases hr : respaced k fields f with
  | some present => cases respaced_formatting hslot hr
  | none =>
    rw [hr] at h
    rw [part_child hslot hd]
    simp only [Holds,HoldsChild] at h
    by_cases htruth : d.truth = true
    · rw [if_pos htruth] at h
      obtain ⟨m,e,hey,rfl,hkept⟩ := h
      rw [if_pos htruth]
      exact .inr ⟨m,rfl,ih hkept (Nat.le_trans hey.1 hfuel)⟩
    · rw [if_neg htruth] at h ⊢
      exact .inl ⟨h,rfl⟩

end Slots

end Fields

section Parts
variable {p : Parser} {t : Store} {a b : Mark} {n : NodeId} {parent : Value} {place : Option Attr}
  {fields : List (String × Datum)} {k : Kind} {c : NodeCell} (hg : Planted p t a b n parent place fields k c)
  (hk : k ≠ .int)
include hg hk

theorem Planted.slot (hslot : .field form f shown ∈ k.layout) :
    ∃ d v x y, lookupLast f.word fields = some d ∧ c.stored? (.field f) = some v ∧
      a.nodes ≤ x.nodes ∧ y.nodes ≤ b.nodes ∧ Slotted p t n k fields form f d x y v := by
  obtain ⟨d,v,x,y,hd,hv,hx,hy,hh⟩ := (hg.sections hk).slot (layout_nodup k) hslot
  exact ⟨d,v,x,y,hd,hv,hx.1,hy.1,hh⟩

theorem Planted.admits (hslot : .field form f shown ∈ k.layout) (hform : form.isText = true)
    (hd : lookupLast f.word fields = some d) : Admits p k f d := by
  have hall : ∀ {slots : List Slot} {a b : Mark}, Sections p t n k fields c slots a b → .field form f shown ∈ slots →
      Admits p k f d := by
    intro slots a b hsections hslot
    induction hsections with
    | nil a => simp at hslot
    | constant _ _ _ ih => exact ih (by simpa using hslot)
    | field _ found _ _ _ admits _ ih =>
      rcases List.mem_cons.mp hslot with heq | hslot
      · cases heq
        cases hd.symm.trans found
        exact admits hform
      · exact ih hslot
  exact hall (hg.sections hk) hslot

theorem Planted.text_part (hf : f ∈ c.texts) :
    ∃ v, c.stored? (.field f) = some v ∧ v.toDatum?.getD .null = settledParts k fields f := by
  rw [hg.texts,mem_foldl_add] at hf
  rcases hf with hf | ⟨form,shown,hform,hslot⟩
  · cases List.mem_singleton.mp hf
    exact ⟨_,hg.type,(part_type hg.named).symm⟩
  · obtain ⟨d,v,x,y,hd,hv,-,-,hh⟩ := hg.slot hk hslot
    exact ⟨v,hv,hh.text_part hslot hd hform⟩

theorem Planted.list_part (hf : f ∈ c.lists) (hfuel : b.nodes ≤ a.nodes + fuel)
    (ih : ∀ ds, lookupLast f.word fields = some (.list ds) → ∀ d ∈ ds, Settles d) :
    ∃ v ms parts, c.stored? (.field f) = some v ∧ members v t = .ok ms ∧ ms.mapM (snapshotAt fuel) t = .ok parts ∧
      Datum.list parts = settledParts k fields f := by
  rw [hg.lists,mem_foldl_add] at hf
  obtain hf | ⟨form,shown,hform,hslot⟩ := hf
  · simp at hf
  obtain ⟨d,v,x,y,hd,hv,hx,hy,hh⟩ := hg.slot hk hslot
  obtain ⟨ms,parts,hparts⟩ := hh.list_part hslot hd hform (show y.nodes ≤ x.nodes + fuel by omega)
    (fun ds hds => ih ds (hds ▸ hd))
  exact ⟨v,ms,parts,hv,hparts⟩

theorem Planted.child_part (hf : f ∈ c.children) (hfuel : b.nodes ≤ a.nodes + fuel)
    (ih : ∀ d, lookupLast f.word fields = some d → Settles d) : ∃ v, c.stored? (.field f) = some v ∧
      (v = .none ∧ settledParts k fields f = .record [] ∨
        ∃ m, v = .node m ∧ snapshotAt fuel v t = .ok (settledParts k fields f)) := by
  rw [hg.children,mem_foldl_add] at hf
  obtain hf | ⟨form,shown,hform,hslot⟩ := hf
  · simp at hf
  obtain ⟨d,v,x,y,hd,hv,hx,hy,hh⟩ := hg.slot hk hslot
  exact ⟨v,hv,hh.child_part hslot hd hform (show y.nodes ≤ x.nodes + fuel by omega) (ih d hd)⟩

omit hk in
theorem Planted.snapshot (hfuel : b.nodes ≤ a.nodes + fuel)
    (ih : ∀ {word d}, lookupLast word fields = some d → Settles d ∧ ∀ ds, d = .list ds → ∀ e ∈ ds, Settles e) :
    snapshotAt (fuel + 1) (.node n) t = .ok (settled (.record fields)) := by
  have hkind := hg.kindOf
  by_cases hint : k = .int
  · subst hint
    obtain ⟨d,i,hd,hi,hv⟩ := hg.number rfl
    simp only [snapshotAt,Read.bind_ok,Read.node_ok]
    refine ⟨c,hg.cell,?_⟩
    rw [if_pos (by rw [hg.kind]; rfl)]
    simp only [Read.bind_ok,Read.pure_ok]
    refine ⟨.int i,look_stored hg.cell hv,?_⟩
    have hnumber : settledNumber fields = toString i := by
      unfold settledNumber
      rw [hd]
      simp only [Option.getD_some,hi]
    simp only [settled,settledRecord,hkind,hnumber,literalText]
  · rw [settled_record hkind hint]
    have hrun := snapshot_fields fuel (settledParts k fields) hg.cell
      (by rw [hg.kind]; exact hint) (fun f hf => hg.text_part hint hf)
      (fun f hf => hg.list_part hint hf hfuel (fun ds hd => (ih hd).2 ds rfl))
      (fun f hf => (hg.child_part hint hf hfuel (fun d hd => (ih hd).1)).imp (fun _ h => ⟨h.1,h.2.imp_left Value.absent⟩))
    rw [hg.texts,hg.lists,hg.children] at hrun
    exact hrun

end Parts

/-- Every node that was built and left alone is written back as its settled datum. -/
theorem snapshot_built (d : Datum) : Settles d := by
  induction d using Datum.induct_built with
  | other d hd => exact fun _ _ _ _ _ _ _ _ h => (h.not_built hd).elim
  | record fields ih =>
    intro p a b n parent place t fuel h hfuel
    obtain ⟨_,k,c,heq,hg⟩ := h.grown
    cases heq
    have hle : a.nodes + 1 ≤ b.nodes := hg.le.1
    obtain _ | fuel := fuel
    · omega
    exact hg.snapshot (show b.nodes ≤ a.nodes + 1 + fuel by omega) ih

theorem textOf_ok {x : Value} {e : Datum} {s : String} (he : snapshot x t = .ok e) :
    textOf x t = .ok s ↔ e.render = .ok s := by
  unfold textOf
  rw [Read.bind_known he,Read.lift_ok]

end Snapshots

end CodeTree
