import CodeTree.Proofs.Boxes

/-! # Putting another part into a datum

Keys lead from a datum to a part of it, and the part can be exchanged for another datum. All other parts stay, and
if the part is shown, the text of the whole changes where the text of the part was and nowhere else.
-/
namespace CodeTree

/-- Fields with another datum under one word. -/
def swapField (word : String) (e : Datum) (fields : List (String × Datum)) : List (String × Datum) :=
  fields.map (fun x => if x.1 = word then (x.1,e) else x)

/-- A datum with another part at the end of the keys. Where the keys lead nowhere it is left as it is. -/
def Datum.graft (d : Datum) (keys : List Key) (e : Datum) : Datum :=
  match keys with
  | [] => e
  | key :: keys =>
    match d, key with
    | .list ds, .index i =>
      match ds[i.toNat]? with
      | some part => .list (ds.set i.toNat (part.graft keys e))
      | none => .list ds
    | .record fields, .name word =>
      match lookupLast word fields with
      | some part => .record (swapField word (part.graft keys e) fields)
      | none => .record fields
    | d, _ => d

section Fields
variable {word other : String} {fields : List (String × Datum)} {d e : Datum}

theorem lookupLast_swap_self (h : lookupLast word fields = some d) : lookupLast word (swapField word e fields) = some e := by
  induction fields generalizing d with
  | nil => cases h
  | cons x fields ih =>
    obtain ⟨key,part⟩ := x
    simp only [swapField,List.map_cons,lookupLast] at h ih ⊢
    cases hrest : lookupLast word fields with
    | some d' => rw [ih hrest]
    | none =>
      rw [hrest] at h
      have hkey : key = word := by
        by_contra hne
        simp [hne] at h
      cases hswap : lookupLast word (fields.map (fun x => if x.1 = word then (x.1,e) else x)) with
      | none => simp [hkey]
      | some d' =>
        obtain ⟨y,hy,heq⟩ := List.mem_map.mp (lookupLast_mem hswap)
        have hword : y.1 = word := by
          split at heq
          · assumption
          · rw [heq]
        exact absurd (List.mem_map.mpr ⟨y,hy,hword⟩) (lookupLast_eq_none.mp hrest)

theorem lookupLast_swap_other (hne : other ≠ word) : lookupLast other (swapField word e fields) = lookupLast other fields := by
  induction fields with
  | nil => rfl
  | cons x fields ih =>
    obtain ⟨key,part⟩ := x
    simp only [swapField,List.map_cons,lookupLast] at ih ⊢
    rw [ih]
    by_cases hkey : key = word
    · subst hkey
      simp [Ne.symm hne]
    · simp [hkey]

theorem Datum.graft_field (h : lookupLast word fields = some d) (keys : List Key) (e : Datum) :
    (Datum.record fields).graft (.name word :: keys) e = .record (swapField word (d.graft keys e) fields) := by
  simp only [Datum.graft,h]

theorem Datum.graft_item {ds : List Datum} {j : Nat} (h : ds[j]? = some d) (keys : List Key) (e : Datum) :
    (Datum.list ds).graft (.index j :: keys) e = .list (ds.set j (d.graft keys e)) := by
  simp only [Datum.graft,Int.toNat_natCast,h]

end Fields

section Texts
variable {d e e' : Datum} {keys : List Key}

theorem Datum.Part.truth_graft (h : d.Part keys e) (he : e'.truth = e.truth) : (d.graft keys e').truth = d.truth := by
  induction h with
  | here d => exact he
  | @item ds j d e keys member rest ih =>
    rw [Datum.graft_item member]
    cases ds with
    | nil => cases member
    | cons d ds => cases j <;> rfl
  | slot named member isPart holds held rest ih =>
    rw [Datum.graft_field held]
    simp [Datum.truth,swapField]

section Slots
variable {fields : List (String × Datum)} {f : Field} {part part' : Datum} (hpart : lookupLast f.word fields = some part)
  (htruth : part'.truth = part.truth)
include hpart htruth

theorem Shown.holds_swap (shown : Shown) : shown.holds (swapField f.word part' fields) = shown.holds fields := by
  cases shown with
  | always => rfl
  | never => rfl
  | whenSet keys =>
    simp only [Shown.holds]
    congr 1
    funext g
    by_cases hg : g.word = f.word
    · rw [hg,lookupLast_swap_self hpart,hpart]
      simp [htruth]
    · rw [lookupLast_swap_other hg]

theorem SlotSpells.swap {slot : Slot} {x : String} (hslot : ∀ form g shown, slot = .field form g shown → g ≠ f)
    (h : SlotSpells fields slot x) : SlotSpells (swapField f.word part' fields) slot x := by
  have hother : ∀ g : Field, g ≠ f → lookupLast g.word (swapField f.word part' fields) = lookupLast g.word fields :=
    fun g hg => lookupLast_swap_other (fun hword => hg (Field.word_injective hword))
  unfold SlotSpells at h ⊢
  rw [Shown.holds_swap hpart htruth]
  split
  · next hshown =>
    rw [if_pos hshown] at h
    cases slot with
    | constant text shown => exact h
    | field form g shown =>
      have hg := hother g (hslot form g shown rfl)
      cases form <;> simpa only [SlotText,hg] using h
  · next hshown =>
    rw [if_neg hshown] at h
    exact h

end Slots

theorem texts_exchanged {α : Type} {R : α → String → Prop} {l₁ l₂ : List α} {a : α} {xs : List String}
    (h : List.Forall₂ R (l₁ ++ a :: l₂) xs) : ∃ before y after, R a y ∧ String.join xs = before ++ y ++ after ∧
      (∀ {R' : α → String → Prop} {a' y'}, (∀ b x, b ∈ l₁ ∨ b ∈ l₂ → R b x → R' b x) → R' a' y' →
        ∃ ys, List.Forall₂ R' (l₁ ++ a' :: l₂) ys ∧ String.join ys = before ++ y' ++ after) ∧
      ∃ zs, List.Forall₂ R l₂ zs ∧ after = String.join zs := by
  induction l₁ generalizing xs with
  | nil =>
    cases h with
    | @cons _ y _ zs hy hzs =>
      refine ⟨"",y,String.join zs,hy,by simp [String.join_cons],fun {R' a' y'} hkept hy' => ?_,zs,hzs,rfl⟩
      have hrest : List.Forall₂ R' l₂ zs := by
        refine List.forall₂_iff_zip.mpr ⟨hzs.length_eq,fun hmem => ?_⟩
        exact hkept _ _ (.inr (List.of_mem_zip hmem).1) ((List.forall₂_iff_zip.mp hzs).2 hmem)
      exact ⟨y' :: zs,.cons hy' hrest,by simp [String.join_cons]⟩
  | cons b l₁ ih =>
    cases h with
    | @cons _ x _ zs hx hzs =>
      obtain ⟨before,y,after,hy,hjoin,hother,hrest⟩ := ih hzs
      refine ⟨x ++ before,y,after,hy,by simp [String.join_cons,hjoin,String.append_assoc],fun {R' a' y'} hkept hy' => ?_,hrest⟩
      obtain ⟨ys,hys,hjoin'⟩ := hother (fun c z hc => hkept c z (hc.imp_left (List.mem_cons_of_mem _))) hy'
      exact ⟨x :: ys,.cons (hkept b x (.inl List.mem_cons_self) hx) hys,by simp [String.join_cons,hjoin',String.append_assoc]⟩

theorem slotFields_append (l₁ l₂ : List Slot) : slotFields (l₁ ++ l₂) = slotFields l₁ ++ slotFields l₂ :=
  List.filterMap_append

theorem layout_around {k : Kind} {form : Form} {f : Field} {shown : Shown} (h : .field form f shown ∈ k.layout) :
    ∃ l₁ l₂, k.layout = l₁ ++ .field form f shown :: l₂ ∧
      ∀ slot, slot ∈ l₁ ∨ slot ∈ l₂ → ∀ form g shown, slot = .field form g shown → g ≠ f := by
  obtain ⟨l₁,l₂,hlayout⟩ := List.append_of_mem h
  have hnodup : (slotFields l₁ ++ f :: slotFields l₂).Nodup := by
    have := layout_nodup k
    rw [hlayout,slotFields_append] at this
    exact this
  refine ⟨l₁,l₂,hlayout,?_⟩
  rintro _ hslot form g shown rfl rfl
  rcases hslot with hslot | hslot
  · exact (List.nodup_append.mp hnodup).2.2 _ (slotFields_mem hslot) _ List.mem_cons_self rfl
  · exact (List.nodup_cons.mp (List.nodup_append.mp hnodup).2.1).1 (slotFields_mem hslot)

/-- The texts that stand before and after the part at the end of the keys, whatever the part is. -/
def Datum.Surrounds (d : Datum) (keys : List Key) (truth : Bool) (before after : String) : Prop :=
  ∀ e text, e.truth = truth → e.render = .ok text → (d.graft keys e).render = .ok (before ++ text ++ after)

/-- Nothing is written behind the part at the end of the keys: it is at the end of all lists on the way, and no slot is shown
behind those on the way. -/
def Datum.Closes : Datum → List Key → Prop
  | _, [] => True
  | .list ds, .index i :: keys => ds.length = i.toNat + 1 ∧ ∀ d, ds[i.toNat]? = some d → d.Closes keys
  | .record fields, .name word :: keys => (∀ l₁ l₂ form f shown, recordLayout fields = .ok (l₁ ++ .field form f shown :: l₂) →
      f.word = word → ∀ slot ∈ l₂, slot.shown.holds fields = false) ∧ ∀ d, lookupLast word fields = some d → d.Closes keys
  | _, _ :: _ => False

theorem hidden_spells {fields : List (String × Datum)} {slots : List Slot} {xs : List String}
    (hslots : ∀ slot ∈ slots, slot.shown.holds fields = false) (h : List.Forall₂ (SlotSpells fields) slots xs) : String.join xs = "" := by
  induction h with
  | nil => rfl
  | @cons slot x slots xs hx _ ih =>
    rw [SlotSpells.hidden (by rw [hslots slot List.mem_cons_self]; exact Bool.false_ne_true)] at hx
    rw [hx,String.join_cons,ih (List.forall_mem_cons.mp hslots).2]
    rfl

/-- Where a part is shown, the text of the whole has the text of the part in it, and with another part the text of that
part stands there instead. -/
theorem Datum.Part.render_around (h : d.Part keys e) {x : String} (hx : d.render = .ok x) :
    ∃ before old after, e.render = .ok old ∧ x = before ++ old ++ after ∧ d.Surrounds keys e.truth before after ∧
      (d.Closes keys → after = "") := by
  induction h generalizing x with
  | here d => exact ⟨"",x,"",hx,by simp,fun e new _ hnew => by simpa [Datum.graft] using hnew,fun _ => rfl⟩
  | @item ds j d e keys member rest ih =>
    obtain ⟨l₁,l₂,rfl,rfl⟩ : ∃ l₁ l₂, ds = l₁ ++ d :: l₂ ∧ l₁.length = j := by
      obtain ⟨hj,rfl⟩ := List.getElem?_eq_some_iff.mp member
      exact ⟨ds.take j,ds.drop (j + 1),by simp,by simp; omega⟩
    obtain ⟨xs,hxs,rfl⟩ := render_list.mp hx
    obtain ⟨l,y,r,hy,hjoin,hexchange,hrest⟩ := texts_exchanged hxs
    obtain ⟨before,old,after,hold,rfl,hgraft,hclose⟩ := ih hy
    refine ⟨l ++ before,old,after ++ r,hold,by simp [hjoin,String.append_assoc],fun e' new he hnew => ?_,fun hcloses => ?_⟩
    · obtain ⟨ys,hys,hjoin'⟩ := hexchange (fun _ _ _ h => h) (hgraft e' new he hnew)
      rw [Datum.graft_item member]
      exact render_list.mpr ⟨ys,by simpa using hys,by simp [hjoin',String.append_assoc]⟩
    · obtain ⟨hlength,hpart⟩ := hcloses
      obtain rfl : l₂ = [] := by
        simp only [List.length_append,List.length_cons,Int.toNat_natCast] at hlength
        exact List.length_eq_zero_iff.mp (by omega)
      obtain ⟨zs,hzs,rfl⟩ := hrest
      cases hzs
      rw [hclose (hpart d member)]
      rfl
  | @slot fields layout form f shown d e keys named member isPart holds held rest ih =>
    obtain ⟨layout',xs,named',hxs,rfl⟩ := render_record.mp hx
    cases named.symm.trans named'
    obtain ⟨k,rfl⟩ := recordLayout_kind named
    obtain ⟨l₁,l₂,hlayout,hothers⟩ := layout_around member
    rw [hlayout] at hxs
    obtain ⟨l,y,r,hy,hjoin,hexchange,hrest⟩ := texts_exchanged hxs
    obtain ⟨d',held',hy⟩ := (SlotSpells.field isPart holds).mp hy
    cases held.symm.trans held'
    obtain ⟨before,old,after,hold,rfl,hgraft,hclose⟩ := ih hy
    refine ⟨l ++ before,old,after ++ r,hold,by simp [hjoin,String.append_assoc],fun e' new he hnew => ?_,fun hcloses => ?_⟩
    · have htruth := rest.truth_graft he
      have hshown := (Shown.holds_swap held htruth shown).trans holds
      obtain ⟨ys,hys,hjoin'⟩ := hexchange (fun slot z hslot hz => SlotSpells.swap held htruth (hothers slot hslot) hz)
        ((SlotSpells.field isPart hshown).mpr ⟨_,lookupLast_swap_self held,hgraft e' new he hnew⟩)
      rw [Datum.graft_field held]
      refine render_record.mpr ⟨_,ys,?_,hys,by simp [hjoin',String.append_assoc]⟩
      -- a field that holds nodes is not the one that names the type
      have hword : "type" ≠ f.word := by
        intro hword
        obtain rfl : Field.type = f := Field.word_injective hword
        cases type_slot member
        cases isPart
      rw [← hlayout,← named]
      unfold recordLayout
      rw [lookupLast_swap_other hword]
    · obtain ⟨hhidden,hpart⟩ := hcloses
      obtain ⟨zs,hzs,rfl⟩ := hrest
      rw [hclose (hpart d held),hidden_spells (hhidden l₁ l₂ form f shown (hlayout ▸ named) rfl) hzs]
      rfl

theorem Datum.Part.render_graft (h : d.Part keys e) {x : String} (hx : d.render = .ok x) :
    ∃ before old after, e.render = .ok old ∧ x = before ++ old ++ after ∧ d.Surrounds keys e.truth before after := by
  obtain ⟨before,old,after,hold,hx,hsurrounds,-⟩ := h.render_around hx
  exact ⟨before,old,after,hold,hx,hsurrounds⟩

end Texts

end CodeTree
