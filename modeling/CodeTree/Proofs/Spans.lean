import CodeTree.Proofs.DocumentBoxes
import CodeTree.Proofs.Grafting
import CodeTree.Proofs.Drifting

/-! # Where the parts of a node lie

The cells that were made for one part of a node or list lie apart from those of every other part. So a change to the
cells of one node shows in what holds it, as another part at the same place, and nowhere else.
-/
namespace CodeTree
variable {d e : Datum} {f : Field} {form : Form} {key : Key} {keys rest : List Key} {vs : List Value} {lc : ListCell}
  {root l : ListId} {x y : Mark} {j levels : Nat} {c' : NodeCell} {m : NodeId} {shown : Shown} {v w : Value}

section Ranges
variable {p : Parser} {t : Store} {n : NodeId} {k : Kind} {fields : List (String × Datum)} {c : NodeCell}
  {slots : List Slot} {a b : Mark} {parent : Value} {place : Option Attr}

/-- A range of cells within one range, all before or all after another. -/
def Aside (a b x y x' y' : Mark) : Prop := a ≤ x' ∧ y' ≤ b ∧ (y' ≤ x ∨ y ≤ x')

theorem Aside.wider {a' b' x' y' : Mark} (h : Aside a b x y x' y') (ha : a' ≤ a) (hb : b ≤ b') : Aside a' b' x y x' y' :=
  ⟨Mark.le_trans ha h.1,Mark.le_trans h.2.1 hb,h.2.2⟩

theorem Kept.append {ds₁ ds₂ : List Datum} (h : Kept (buildEach (ds₁ ++ ds₂) parent place) p a b vs t) :
    ∃ vs₁ vs₂ e, vs = vs₁ ++ vs₂ ∧ vs₁.length = ds₁.length ∧ Kept (buildEach ds₁ parent place) p a e vs₁ t ∧
      Kept (buildEach ds₂ parent place) p e b vs₂ t ∧ a ≤ e ∧ e ≤ b := by
  have hruns : ∀ {ds₁ : List Datum} {u v : Store} {vs : List Value}, buildEach (ds₁ ++ ds₂) parent place p u = .ok vs v →
      ∃ vs₁ vs₂ w, vs = vs₁ ++ vs₂ ∧ vs₁.length = ds₁.length ∧ buildEach ds₁ parent place p u = .ok vs₁ w ∧
        buildEach ds₂ parent place p w = .ok vs₂ v := by
    intro ds₁
    induction ds₁ with
    | nil => exact fun h => ⟨[],_,_,rfl,rfl,rfl,h⟩
    | cons d ds₁ ih =>
      intro u v vs h
      simp only [List.cons_append,buildEach,Edit.bind_ok,Edit.pure_ok] at h
      obtain ⟨m,s,hs,rest,_,hrest,rfl,rfl⟩ := h
      obtain ⟨vs₁,vs₂,w,rfl,hlen,h₁,h₂⟩ := ih hrest
      refine ⟨.node m :: vs₁,vs₂,w,rfl,by simp [hlen],?_,h₂⟩
      simp only [buildEach,Edit.bind_ok,Edit.pure_ok]
      exact ⟨m,s,hs,vs₁,w,h₁,rfl,rfl⟩
  obtain ⟨u,v,rfl,rfl,hrun,hagree⟩ := h
  obtain ⟨vs₁,vs₂,w,rfl,hlen,h₁,h₂⟩ := hruns hrun
  have hg := (buildEach_adds (fun d _ => build_adds d) parent place).grows h₁
  have hg' := (buildEach_adds (fun d _ => build_adds d) parent place).grows h₂
  refine ⟨vs₁,vs₂,w.mark,rfl,hlen,⟨u,w,rfl,rfl,h₁,?_⟩,⟨w,v,rfl,rfl,h₂,?_⟩,hg.mark,hg'.mark⟩
  · exact (hg'.agree _).trans (hagree.narrow (Mark.le_refl _) hg'.mark)
  · exact hagree.narrow hg.mark (Mark.le_refl _)

/-- The slots of a node were filled one after the other, so the cells of one that sets no spacing lie apart from what
the others hold. -/
theorem Sections.around (h : Sections p t n k fields c slots a b) (hnd : (slotFields slots).Nodup)
    (hslot : .field form f shown ∈ slots) (hspace : k.respaces f = false) :
    ∃ d x y, lookupLast f.word fields = some d ∧ a ≤ x ∧ y ≤ b ∧
      (lookupLast f (spacingOf k fields (after f slots)) = none →
        ∃ v, c.stored? (.field f) = some v ∧ Holds p t n k form f d x y v) ∧
      (∀ {form' g shown'}, .field form' g shown' ∈ slots → g ≠ f → ∃ d' v x' y', lookupLast g.word fields = some d' ∧
        c.stored? (.field g) = some v ∧ Aside a b x y x' y' ∧
          match lookupLast g (spacingOf k fields (after g slots)) with
          | none => Holds p t n k form' g d' x' y' v
          | some present => Spaces t n x' y' present v) ∧
      ∀ {g present}, g ∉ slotFields slots → lookupLast g (spacingOf k fields slots) = some present →
        ∃ v x' y', c.stored? (.field g) = some v ∧ Aside a b x y x' y' ∧ Spaces t n x' y' present v := by
  induction h with
  | nil a => simp at hslot
  | constant text shown' _ ih =>
    obtain ⟨d,x,y,hd,hx,hy,hheld,hothers,hspaced⟩ := ih hnd (by simpa using hslot)
    exact ⟨d,x,y,hd,hx,hy,hheld,fun hg => hothers (by simpa using hg),hspaced⟩
  | @field rest a e b form' g d shown' found hle held spaces admits more ih =>
    obtain ⟨hg,hnd'⟩ := List.nodup_cons.mp hnd
    have hspacing : spacingOf k fields (.field form' g shown' :: rest) = respacing k g d ++ spacingOf k fields rest := by
      simp [spacingOf,slotFields,found]
    rcases List.mem_cons.mp hslot with heq | hslot
    · -- what comes after the slot lies behind its cells
      cases heq
      refine ⟨d,a,e,found,Mark.le_refl a,more.le,fun hr => ?_,fun {form' g' shown'} hslot' hne => ?_,
        fun {g' present} hg' hp => ?_⟩
      · simp only [after,if_true] at hr
        exact held (lookupLast_eq_none.mp hr)
      · have hslot' : .field form' g' shown' ∈ rest := (List.mem_cons.mp hslot').resolve_left (fun heq => by
          cases heq
          exact hne rfl)
        obtain ⟨d',v,x',y',hd',hv,hx',hy',hh⟩ := more.slot hnd' hslot'
        simp only [after,if_neg (Ne.symm hne)]
        exact ⟨d',v,x',y',hd',hv,⟨Mark.le_trans hle hx',hy',.inr hx'⟩,hh⟩
      · rw [hspacing,respacing_eq_nil hspace,List.nil_append] at hp
        obtain ⟨v,x',y',hv,hx',hy',hs⟩ := more.respaced (fun hmem => hg' (List.mem_cons_of_mem _ hmem)) hp
        exact ⟨v,x',y',hv,⟨Mark.le_trans hle hx',hy',.inr hx'⟩,hs⟩
    · have hne : g ≠ f := by
        rintro rfl
        exact hg (slotFields_mem hslot)
      obtain ⟨d₀,x,y,hd,hx,hy,hheld,hothers,hspaced⟩ := ih hnd' hslot
      refine ⟨d₀,x,y,hd,Mark.le_trans hle hx,hy,fun hr => ?_,fun {form' g' shown'} hslot' hne' => ?_,
        fun {g' present} hg' hp => ?_⟩
      · simp only [after,if_neg hne] at hr
        exact hheld hr
      · rcases List.mem_cons.mp hslot' with heq | hslot'
        · cases heq
          simp only [after,if_true]
          cases hr : lookupLast g (spacingOf k fields rest) with
          | none =>
            obtain ⟨v,hv,hh⟩ := held (lookupLast_eq_none.mp hr)
            exact ⟨d,v,a,e,found,hv,⟨Mark.le_refl a,more.le,.inl hx⟩,hh⟩
          | some present =>
            obtain ⟨v,x',y',hv,haside,hs⟩ := hspaced hg hr
            exact ⟨d,v,x',y',found,hv,haside.wider hle (Mark.le_refl _),hs⟩
        · obtain ⟨d',v,x',y',hd',hv,haside,hh⟩ := hothers hslot' hne'
          have hgg : g ≠ g' := by
            rintro rfl
            exact hg (slotFields_mem hslot')
          simp only [after,if_neg hgg]
          exact ⟨d',v,x',y',hd',hv,haside.wider hle (Mark.le_refl _),hh⟩
      · have hrest : g' ∉ slotFields rest := fun hmem => hg' (List.mem_cons_of_mem _ hmem)
        rw [hspacing,lookupLast_append] at hp
        cases hr : lookupLast g' (spacingOf k fields rest) with
        | some present' =>
          rw [hr,Option.some_or] at hp
          obtain ⟨v,x',y',hv,haside,hs⟩ := hspaced hrest (hr.trans hp)
          exact ⟨v,x',y',hv,haside.wider hle (Mark.le_refl _),hs⟩
        | none =>
          rw [hr,Option.none_or] at hp
          obtain ⟨v,hv,hs⟩ := spaces.each _ (lookupLast_mem hp) ⟨hrest,lookupLast_eq_none.mp hr⟩
          exact ⟨v,a,e,hv,⟨Mark.le_refl a,more.le,.inl hx⟩,hs⟩

theorem Planted.around (hg : Planted p t a b n parent place fields k c) (hk : k ≠ .int)
    (hslot : .field form f shown ∈ k.layout) (hform : form.isText = false) (hr : respaced k fields f = none) :
    ∃ d v x y, lookupLast f.word fields = some d ∧ a ≤ x ∧ y ≤ b ∧ c.stored? (.field f) = some v ∧
      Holds p t n k form f d x y v ∧
      ∀ {form' g shown'}, .field form' g shown' ∈ k.layout → g ≠ f → ∃ d' v x' y', lookupLast g.word fields = some d' ∧
        c.stored? (.field g) = some v ∧ Aside a b x y x' y' ∧ Slotted p t n k fields form' g d' x' y' v := by
  have hfit := layout_fits k _ hslot
  simp only [Slot.fits,Bool.and_eq_true,Bool.or_eq_true,Bool.not_eq_true',beq_iff_eq] at hfit
  have hspace : k.respaces f = false := hfit.1.1.1.2.resolve_right (Form.ne_text hform)
  obtain ⟨d,x,y,hd,hx,hy,hheld,hothers,-⟩ := (hg.sections hk).around (layout_nodup k) hslot hspace
  obtain ⟨v,hv,hh⟩ := hheld hr
  exact ⟨d,v,x,y,hd,hx,hy,hv,hh,hothers⟩

theorem Kept.around {ds : List Datum} (h : Kept (buildEach ds parent place) p a b vs t) (hj : vs[j]? = some (.node m)) :
    ∃ ds₁ d ds₂ vs₁ vs₂ x y, ds = ds₁ ++ d :: ds₂ ∧ vs = vs₁ ++ .node m :: vs₂ ∧ ds₁.length = j ∧ vs₁.length = j ∧
      a ≤ x ∧ x ≤ y ∧ y ≤ b ∧ Kept (buildEach ds₁ parent place) p a x vs₁ t ∧ Kept (build d parent place) p x y m t ∧
      Kept (buildEach ds₂ parent place) p y b vs₂ t := by
  obtain ⟨d,-,-,hd,-⟩ := h.member hj
  obtain ⟨hlt,hget⟩ := List.getElem?_eq_some_iff.mp hd
  have hds : ds = ds.take j ++ d :: ds.drop (j + 1) := by simp [← hget]
  rw [hds] at h
  obtain ⟨vs₁,vs₂,x,rfl,hlen,h₁,h₂,hax,-⟩ := h.append
  obtain ⟨m',vs₂,y,rfl,hm,h₂,hxy,hyb⟩ := h₂.cons
  have hlen' : (ds.take j).length = j := by simp; omega
  have hvs : vs₁.length = j := hlen.trans hlen'
  have hm' : m' = m := by simpa [← hvs] using hj
  subst hm'
  exact ⟨_,d,_,vs₁,vs₂,x,y,hds,rfl,hlen',hvs,hax,hxy,hyb,h₁,hm,h₂⟩

end Ranges

section Leading
variable (t : Store)

/-- One step down from a node or list to a part of it. -/
inductive Store.Step : Value → Key → Value → Prop where
  | item {l : ListId} {lc : ListCell} {j : Nat} {m : NodeId} (cell : t.lists[l.index]? = some lc)
      (member : lc.items[j]? = some (.node m)) : Store.Step (.list l) (.index j) (.node m)
  | child {n : NodeId} {c : NodeCell} {slots : List Slot} {form : Form} {f : Field} {shown : Shown} {m : NodeId}
      (cell : t.nodes[n.index]? = some c) (layout : c.layout = .ok slots) (slot : .field form f shown ∈ slots)
      (held : c.stored? (.field f) = some (.node m)) : Store.Step (.node n) (.name f.word) (.node m)
  | list {n : NodeId} {c : NodeCell} {slots : List Slot} {form : Form} {f : Field} {shown : Shown} {held : Value}
      {l : ListId} {lc : ListCell} (cell : t.nodes[n.index]? = some c) (layout : c.layout = .ok slots)
      (slot : .field form f shown ∈ slots) (stored : c.stored? (.field f) = some held)
      (behind : behind held t = .ok (.list l)) (behindCell : t.lists[l.index]? = some lc) (nodes : lc.flavour = .nodes) :
      Store.Step (.node n) (.name f.word) (.list l)

/-- The keys lead down from a node or list to what lies in it. -/
inductive Store.Leads : Value → List Key → Value → Prop where
  | here (v : Value) : Store.Leads v [] v
  | down {v w x : Value} {key : Key} {keys : List Key} (step : t.Step v key w) (rest : Store.Leads w keys x) :
      Store.Leads v (key :: keys) x

variable {t}

theorem Store.Reaches.leads {x : Value} (h : t.Reaches root keys v) (hrest : t.Leads v rest x) :
    t.Leads (.list root) (keys ++ rest) x := by
  induction h generalizing rest with
  | root => exact hrest
  | item above cell member ih =>
    rw [List.append_assoc]
    exact ih (.down (.item cell member) hrest)
  | child above cell layout slot held ih =>
    rw [List.append_assoc]
    exact ih (.down (.child cell layout slot held) hrest)
  | list above cell layout slot stored behind behindCell nodes ih =>
    rw [List.append_assoc]
    exact ih (.down (.list cell layout slot stored behind behindCell nodes) hrest)

theorem Store.Reaches.toLeads (h : t.Reaches root keys v) : t.Leads (.list root) keys v := by simpa using h.leads (.here _)

theorem Store.Step.unique {w' : Value} (h : t.Step v key w) (h' : t.Step v key w') : w = w' := by
  have hname : ∀ {f g : Field}, Key.name f.word = .name g.word → f = g :=
    fun h => Field.word_injective (Key.name.inj h)
  generalize hkey : key = key' at h'
  cases h with
  | item cell member =>
    cases h' with
    | item cell' member' =>
      cases cell.symm.trans cell'
      cases Int.ofNat.inj (Key.index.inj hkey)
      exact Option.some.inj (member.symm.trans member')
  | child cell layout slot held =>
    cases h' with
    | child cell' layout' slot' held' =>
      cases cell.symm.trans cell'
      cases hname hkey
      exact Option.some.inj (held.symm.trans held')
    | list cell' layout' slot' stored' behind' =>
      cases cell.symm.trans cell'
      cases hname hkey
      cases held.symm.trans stored'
      cases behind'
  | list cell layout slot stored behind =>
    cases h' with
    | child cell' layout' slot' held' =>
      cases cell.symm.trans cell'
      cases hname hkey
      cases stored.symm.trans held'
      cases behind
    | list cell' layout' slot' stored' behind' =>
      cases cell.symm.trans cell'
      cases hname hkey
      cases stored.symm.trans stored'
      cases behind.symm.trans behind'
      rfl

theorem Store.Leads.reaches {x : Value} (hrest : t.Leads v rest x) (h : t.Reaches root keys v) :
    t.Reaches root (keys ++ rest) x := by
  induction hrest generalizing keys with
  | here v => simpa using h
  | @down v w x key rest step below ih =>
    rw [← List.singleton_append,← List.append_assoc]
    refine ih ?_
    cases step with
    | item cell member => exact .item h cell member
    | child cell layout slot held => exact .child h cell layout slot held
    | list cell layout slot stored behind behindCell nodes =>
      exact .list h cell layout slot stored behind behindCell nodes

theorem Store.Step.growsOff {u : Store} {z : NodeId} (h : t.Step v key w) (hu : t.GrowsOff z u)
    (hne : ∀ {n}, v = .node n → n.index ≠ z.index) : u.Step v key w := by
  have hcell : ∀ {n c}, v = .node n → t.nodes[n.index]? = some c → u.nodes[n.index]? = some c :=
    fun hv hc => (hu.nodes _ (Store.lt_nodes_of_get hc) (hne hv)).trans hc
  have hlist : ∀ {l : ListId} {lc}, t.lists[l.index]? = some lc → u.lists[l.index]? = some lc :=
    fun hl => (hu.lists _ (Store.lt_lists_of_get hl)).trans hl
  cases h with
  | item cell member => exact .item (hlist cell) member
  | child cell layout slot held => exact .child (hcell rfl cell) layout slot held
  | @list n c slots form f shown held l lc cell layout slot stored hbehind behindCell nodes =>
    refine .list (hcell rfl cell) layout slot stored ?_ (hlist behindCell) nodes
    cases held with
    | view w =>
      obtain ⟨vc,hvc,htarget⟩ := Read.bind_ok.mp hbehind
      exact Read.bind_ok.mpr ⟨vc,Read.view_ok.mpr ((hu.views _ (Store.lt_views_of_get (Read.view_ok.mp hvc))).trans
        (Read.view_ok.mp hvc)),htarget⟩
    | _ => exact hbehind

end Leading

section Spanning
variable {p : Parser} {t u : Store} {a b : Mark} {n z : NodeId} {parent : Value} {place : Option Attr}
  {fields : List (String × Datum)} {k : Kind} {c : NodeCell} {F fuel : Nat}

/-- A value is written as a datum, as soon as so many levels are looked at. -/
def Store.Writes (t : Store) (levels : Nat) (v : Value) (e : Datum) : Prop :=
  ∀ fuel, levels ≤ fuel → snapshotAt fuel v t = .ok e

/-- A node or list and the range of its cells, with the datum that it is written as and how many levels it has at most. -/
inductive Spans (p : Parser) (t : Store) (a b : Mark) : Nat → Value → Datum → Prop where
  | node {n : NodeId} {d : Datum} {parent : Value} {place : Option Attr} (kept : Kept (build d parent place) p a b n t) :
      Spans p t a b (b.nodes - a.nodes) (.node n) (settled d)
  | list {l : ListId} {lc : ListCell} {ds : List Datum} {parent : Value} {place : Option Attr}
      (cell : t.lists[l.index]? = some lc) (nodes : lc.flavour = .nodes)
      (kept : Kept (buildEach ds parent place) p a b lc.items t) (last : l.index = b.lists) :
      Spans p t a b (b.nodes - a.nodes + 1) (.list l) (.list (ds.map settled))

theorem swap_gathered (k : Kind) (part : Field → Datum) (f : Field) (e : Datum) :
    swapField f.word e (gathered k part) = gathered k (fun g => if g = f then e else part g) := by
  unfold swapField gathered
  rw [List.map_map]
  refine List.map_congr_left (fun g _ => ?_)
  by_cases hg : g = f
  · subst hg
    simp
  · have hword : g.word ≠ f.word := fun h => hg (Field.word_injective h)
    simp [hg,hword]

/-- What a field of a node is written as. -/
def Store.WritesField (u : Store) (fuel : Nat) (form : Form) (v : Value) (e : Datum) : Prop :=
  match form with
  | .text | .flag => v.toDatum?.getD .null = e
  | .child => isAbsent v u = .ok true ∧ e = .record [] ∨ ∃ m, v = .node m ∧ snapshotAt fuel v u = .ok e
  | .children | .formatting =>
    ∃ ms parts, members v u = .ok ms ∧ ms.mapM (snapshotAt fuel) u = .ok parts ∧ .list parts = e

theorem snapshot_layout (fuel : Nat) (part : Field → Datum) (hc : u.nodes[n.index]? = some c) (hk : c.kind ≠ .int)
    (htexts : c.texts = c.kind.layout.foldl (fun fs slot => slot.add Form.isText fs) [.type])
    (hlists : c.lists = c.kind.layout.foldl (fun fs slot => slot.add Form.isList fs) [])
    (hchildren : c.children = c.kind.layout.foldl (fun fs slot => slot.add Form.isChild fs) [])
    (htype : ∃ v, c.stored? (.field .type) = some v ∧ v.toDatum?.getD .null = part .type)
    (hreads : ∀ {form f shown}, .field form f shown ∈ c.kind.layout → ∃ v, c.stored? (.field f) = some v ∧ u.WritesField fuel form v (part f)) :
    snapshotAt (fuel + 1) (.node n) u = .ok (.record (gathered c.kind part)) := by
  have hrun := snapshot_fields fuel part hc hk (fun g hg => ?_) (fun g hg => ?_) (fun g hg => ?_)
  · rw [htexts,hlists,hchildren] at hrun
    exact hrun
  · rw [htexts,mem_foldl_add] at hg
    rcases hg with hg | ⟨form,shown,hform,hslot⟩
    · cases List.mem_singleton.mp hg
      exact htype
    · obtain ⟨x,hx,hread⟩ := hreads hslot
      cases form <;> first | exact ⟨x,hx,hread⟩ | cases hform
  · rw [hlists,mem_foldl_add] at hg
    obtain hg | ⟨form,shown,hform,hslot⟩ := hg
    · simp at hg
    obtain ⟨x,hx,hread⟩ := hreads hslot
    obtain ⟨ms,parts,hparts⟩ : ∃ ms parts, members x u = .ok ms ∧ ms.mapM (snapshotAt fuel) u = .ok parts ∧
        .list parts = part g := by
      cases form <;> first | exact hread | cases hform
    exact ⟨x,ms,parts,hx,hparts⟩
  · rw [hchildren,mem_foldl_add] at hg
    obtain hg | ⟨form,shown,hform,hslot⟩ := hg
    · simp at hg
    obtain ⟨x,hx,hread⟩ := hreads hslot
    cases form <;> first | exact ⟨x,hx,hread⟩ | cases hform

theorem Slotted.writes_drift {F : Freedom} (h : Slotted p t n k fields form f d a b v)
    (hslot : .field form f shown ∈ k.layout) (hd : lookupLast f.word fields = some d) (hfuel : b.nodes ≤ a.nodes + fuel)
    (hu : t.Drifts F u) (hF : F.Avoids a b) : u.WritesField fuel form v (settledParts k fields f) := by
  have hlist : form.isList = true → ∃ ms parts, members v u = .ok ms ∧ ms.mapM (snapshotAt fuel) u = .ok parts ∧
      .list parts = settledParts k fields f := by
    intro hform
    obtain ⟨ms,hms,hmembers,hsame⟩ := h.overlooks_list hform (fun _ _ e _ => overlooks e) hu hF
    obtain ⟨ms',parts,hms',hparts,heq⟩ := h.list_part hslot hd hform hfuel (fun _ _ e _ => snapshot_built e)
    cases hms.symm.trans hms'
    exact ⟨ms,parts,hmembers,(Read.mapM_congr hsame).trans hparts,heq⟩
  cases form with
  | text | flag => exact h.text_part hslot hd rfl
  | child =>
    obtain ⟨habsent,hsame⟩ := h.overlooks_child hslot (overlooks d) hu hF
    rcases h.child_part hslot hd rfl hfuel (snapshot_built d) with ⟨rfl,he⟩ | ⟨m,hm,hsnap⟩
    · exact .inl ⟨rfl,he⟩
    · exact .inr ⟨m,hm,hsame.trans hsnap⟩
  | children => exact hlist rfl
  | formatting => exact hlist rfl

theorem Planted.rewrites (hg : Planted p t a b n parent place fields k c) (hk : k ≠ .int) (hc : u.nodes[n.index]? = some c')
    {free : Attr → Prop} (hkeeps : c.Keeps free c') (htype : ¬ free (.field .type)) {part : Field → Datum}
    (hnamed : part .type = .text k.word)
    (hparts : ∀ {form f shown}, .field form f shown ∈ k.layout → ∃ v, c'.stored? (.field f) = some v ∧ u.WritesField fuel form v (part f)) :
    snapshotAt (fuel + 1) (.node n) u = .ok (.record (gathered k part)) := by
  have hkind : c'.kind = k := hkeeps.kind.trans hg.kind
  have hrun := snapshot_layout fuel part hc (by rw [hkind]; exact hk) (by rw [hkeeps.texts,hkind]; exact hg.texts)
    (by rw [hkeeps.lists,hkind]; exact hg.lists) (by rw [hkeeps.children,hkind]; exact hg.children)
    ⟨_,(hkeeps.stored _ htype).trans hg.type,hnamed.symm⟩ (fun hslot => hparts (hkind ▸ hslot))
  rw [hkind] at hrun
  exact hrun

/-- A node whose slots are read as they were, but for one, is written with another part under the field of that slot. -/
theorem Planted.graft (hg : Planted p t a b n parent place fields k c) (hk : k ≠ .int) (hc : u.nodes[n.index]? = some c')
    (hkeeps : c.Keeps (fun _ => False) c') (hslot : .field form f shown ∈ k.layout) (hform : form.isText = false)
    (hothers : ∀ {form' g shown'}, .field form' g shown' ∈ k.layout → g ≠ f → ∃ v, c.stored? (.field g) = some v ∧
      u.WritesField fuel form' v (settledParts k fields g)) (hv : c.stored? (.field f) = some v)
    (hpart : u.WritesField fuel form v e) :
    snapshotAt (fuel + 1) (.node n) u = .ok ((settled (.record fields)).graft [.name f.word] e) := by
  rw [settled_record hg.kindOf hk,Datum.graft_field (lookup_gathered (slot_field_mem hslot)),swap_gathered]
  refine hg.rewrites hk hc hkeeps id ?_ (fun {form' g shown'} hslot' => ?_)
  · have hne : Field.type ≠ f := by
      rintro rfl
      cases type_slot hslot
      cases hform
    rw [if_neg hne,part_type hg.named]
  · rw [hkeeps.stored _ id]
    by_cases hne : g = f
    · subst hne
      obtain rfl : form' = form :=
        Option.some.inj ((formIn_eq (layout_nodup k) hslot').symm.trans (formIn_eq (layout_nodup k) hslot))
      rw [if_pos rfl]
      exact ⟨v,hv,hpart⟩
    · rw [if_neg hne]
      exact hothers hslot' hne

/-- Where the cells of a node or list end: that of a list comes after those of its items. -/
def Value.stop (v : Value) (b : Mark) : Mark :=
  match v with
  | .list _ => ⟨b.nodes,b.lists + 1,b.views⟩
  | _ => b

theorem Value.le_stop (v : Value) (b : Mark) : b ≤ v.stop b := by
  cases v with
  | list l => exact ⟨Nat.le_refl _,Nat.le_succ _,Nat.le_refl _⟩
  | _ => exact Mark.le_refl b

/-- A part lies in a node or list, apart from every other part. With another datum for the part, the whole is written
with that datum in its place. -/
structure Parted (p : Parser) (t : Store) (a b : Mark) (levels : Nat) (v : Value) (e : Datum) (key : Key) (w : Value)
    (x y : Mark) (below : Nat) (d : Datum) : Prop where
  part : Spans p t x y below w d
  from_le : a ≤ x
  stop_le : w.stop y ≤ b
  inside : ∀ {n}, v = .node n → n.index < x.nodes
  others : ∀ {key' w'}, key' ≠ key → t.Step v key' w' → ∃ x' y' below' d', Spans p t x' y' below' w' d' ∧ Aside a b x y x' y'
  grafts : ∀ {u F G keys E}, t.Drifts F u → F.Confined a b x (w.stop y) → (∀ {l}, v = .list l → ¬ F.list l) →
    u.Writes (G + below) w (d.graft keys E) → u.Writes (G + levels) v (e.graft (key :: keys) E)

theorem Parted.to_le {below : Nat} (h : Parted p t a b levels v e key w x y below d) :
    y ≤ b := Mark.le_trans (Value.le_stop w y) h.stop_le

theorem Spans.item (h : Spans p t a b levels (.list l) e) (hl : t.lists[l.index]? = some lc)
    (hj : lc.items[j]? = some (.node m)) :
    ∃ x y below d, Parted p t a b levels (.list l) e (.index j) (.node m) x y below d := by
  cases h with
  | @list _ lc' ds parent place cell nodes kept last =>
    cases hl.symm.trans cell
    obtain ⟨ds₁,d,ds₂,vs₁,vs₂,x,y,rfl,hitems,rfl,hlen,hax,hxy,hyb,h₁,hm,h₂⟩ := kept.around hj
    refine ⟨x,y,_,settled d,.node hm,hax,hyb,(by rintro _ ⟨⟩),?_,?_⟩
    · intro key' w' hne hstep
      cases hstep with
      | @item _ lc' i m' cell' member =>
        cases hl.symm.trans cell'
        have hij : i ≠ ds₁.length := by
          rintro rfl
          exact hne rfl
        rw [hitems] at member
        -- the other node lies before the one or after it
        rcases Nat.lt_or_ge i ds₁.length with hlt | hge
        · rw [List.getElem?_append_left (by omega)] at member
          obtain ⟨d',x',y',-,hm',hx',hy'⟩ := h₁.member member
          exact ⟨x',y',_,_,.node hm',hx',Mark.le_trans hy' (Mark.le_trans hxy hyb),.inl hy'⟩
        · obtain ⟨i,rfl⟩ : ∃ q, i = vs₁.length + 1 + q := ⟨i - (vs₁.length + 1),by omega⟩
          have member : vs₂[i]? = some (.node m') := by
            rw [List.getElem?_append_right (by omega),show vs₁.length + 1 + i - vs₁.length = i + 1 by omega] at member
            exact member
          obtain ⟨d',x',y',-,hm',hx',hy'⟩ := h₂.member member
          exact ⟨x',y',_,_,.node hm',Mark.le_trans hax (Mark.le_trans hxy hx'),hy',.inr hx'⟩
    · intro u F G keys E hu hF hl' hw fuel hfuel
      obtain _ | fuel := fuel
      · omega
      have hle := Nat.le_trans hax.1 hxy.1
      have hle' := hyb.1
      have hsnap := hw fuel (by have := hax.1; omega)
      have havoid₁ : F.Avoids a x := (hF.part (Mark.le_refl a) (Mark.le_trans hxy hyb)).avoids (.inl (Mark.le_refl x))
      have havoid₂ : F.Avoids y b := (hF.part (Mark.le_trans hax hxy) (Mark.le_refl b)).avoids (.inr (Mark.le_refl y))
      have hrow₁ := snapshot_row (fun d _ => snapshot_built d) h₁ (show x.nodes ≤ a.nodes + fuel by have := hxy.1; omega)
      have hrow₂ := snapshot_row (fun d _ => snapshot_built d) h₂ (show b.nodes ≤ y.nodes + fuel by omega)
      rw [← Read.mapM_congr (h₁.overlooks_each (fun d _ => overlooks d) hu havoid₁)] at hrow₁
      rw [← Read.mapM_congr (h₂.overlooks_each (fun d _ => overlooks d) hu havoid₂)] at hrow₂
      obtain ⟨lc',hlc',hflavour,hsame⟩ := hu.same_items hl (hl' rfl)
      rw [List.map_append,List.map_cons,Datum.graft_item (d := settled d) (by simp)]
      rw [snapshotAt,Read.list_known hlc',if_pos (by rw [hflavour,nodes]; rfl),hsame,hitems,List.mapM_append,
        List.mapM_cons]
      simp only [Read.bind_ok,Read.pure_ok]
      exact ⟨_,⟨_,hrow₁,_,⟨_,hsnap,_,hrow₂,rfl⟩,rfl⟩,by simp⟩

/-- What a field holds opens on a node or on a list of nodes. -/
def Store.Opens (t : Store) (v w : Value) : Prop :=
  behind v t = .ok w ∧ ((∃ m, w = .node m) ∨ ∃ l lc, w = .list l ∧ t.lists[l.index]? = some lc ∧ lc.flavour = .nodes)

theorem Store.Opens.not_datum (h : t.Opens v w) (d : Datum) : v ≠ .ofDatum d := by
  rintro rfl
  obtain ⟨hbehind,⟨m,rfl⟩ | ⟨l,lc,rfl,-⟩⟩ := h
  · cases d <;> cases hbehind
  · cases d <;> cases hbehind

theorem Store.Opens.not_plain (h : t.Opens v w) (hv : v = .list l) (hl : t.lists[l.index]? = some lc) :
    lc.flavour ≠ .plain := by
  subst hv
  obtain ⟨hbehind,⟨m,rfl⟩ | ⟨l',lc',rfl,hl',hnodes⟩⟩ := h
  · cases hbehind
  · cases hbehind
    cases hl.symm.trans hl'
    rw [hnodes]
    decide

theorem members_behind (h : behind v t = .ok (.list l)) (hl : t.lists[l.index]? = some lc) : members v t = .ok lc.items := by
  cases v with
  | view w =>
    obtain ⟨vc,hw,htarget⟩ := Read.bind_ok.mp h
    exact members_view (Read.view_ok.mp hw) (Read.pure_ok.mp htarget) hl
  | list l' =>
    cases h
    exact members_list hl
  | _ => cases h

theorem Store.Opens.drifts {F : Freedom} (h : t.Opens v w) (hu : t.Drifts F u) : u.Opens v w := by
  obtain ⟨hbehind,hw⟩ := h
  refine ⟨?_,hw.imp_right (fun ⟨l,lc,hl,hcell,hnodes⟩ => ?_)⟩
  · cases v with
    | view x =>
      obtain ⟨vc,hx,htarget⟩ := Read.bind_ok.mp hbehind
      obtain ⟨vc',hx',heq⟩ := hu.view (Read.view_ok.mp hx)
      exact (Read.view_known hx').trans (congrArg Except.ok (heq.trans (Read.pure_ok.mp htarget)))
    | _ => exact hbehind
  · obtain ⟨lc',hl',hflavour,-⟩ := hu.list hcell
    exact ⟨l,lc',hl,hl',hflavour.trans hnodes⟩

theorem Store.Step.field (h : t.Step (.node n) key w) :
    ∃ c slots form f shown v, key = .name f.word ∧ t.nodes[n.index]? = some c ∧ c.layout = .ok slots ∧
      .field form f shown ∈ slots ∧ c.stored? (.field f) = some v ∧ t.Opens v w := by
  cases h with
  | child cell layout slot held => exact ⟨_,_,_,_,_,_,rfl,cell,layout,slot,held,rfl,.inl ⟨_,rfl⟩⟩
  | list cell layout slot stored behind behindCell nodes =>
    exact ⟨_,_,_,_,_,_,rfl,cell,layout,slot,stored,behind,.inr ⟨_,_,rfl,behindCell,nodes⟩⟩

/-- What a field opens on was built for it and is written as its part of the record. In a store where the field still opens
on it the field is read off it. -/
theorem Holds.spans (h : Holds p t n k form f d a b v) (hslot : .field form f shown ∈ k.layout)
    (hr : respaced k fields f = none) (hd : lookupLast f.word fields = some d) (hopens : t.Opens v w) :
    ∃ e below, w.stop e ≤ b ∧ Spans p t a e below w (settledParts k fields f) ∧
      ∀ {u : Store} {F fuel E}, u.Opens v w → F + b.nodes ≤ a.nodes + fuel → u.Writes (F + below) w E → u.WritesField fuel form v E := by
  have hlist : form.isList = true → HoldsList p t n k f d a b v →
      ∃ e below, w.stop e ≤ b ∧ Spans p t a e below w (settledParts k fields f) ∧
        ∀ {u : Store} {F fuel E}, u.Opens v w → F + b.nodes ≤ a.nodes + fuel → u.Writes (F + below) w E →
          ∃ ms parts, members v u = .ok ms ∧ ms.mapM (snapshotAt fuel) u = .ok parts ∧ .list parts = E := by
    intro hform hrow
    obtain ⟨vs,e,heb,hkept,hcovers,hl,hlt⟩ := hrow.covers_within
    obtain rfl : w = .list ⟨e.lists⟩ := Except.ok.inj (hopens.1.symm.trans (behind_covers hcovers))
    obtain ⟨ds,hrow,hds⟩ := hkept.items
    have hpart : settledParts k fields f = .list (ds.map settled) := by
      rw [part_list hslot hform hd,hr]
      rcases hds with rfl | ⟨rfl,rfl | rfl⟩
      · simp [settled,settledEach_eq,Datum.asItems]
      · rfl
      · rfl
    rw [hpart]
    refine ⟨e,_,⟨heb.1,hlt,heb.2.2⟩,.list hl rfl hrow rfl,?_⟩
    intro u F fuel E hu hfuel hw
    obtain ⟨hbehind,⟨_,heq⟩ | ⟨_,lc,heq,hl',hnodes⟩⟩ := hu
    · cases heq
    cases heq
    have hsnap := hw (fuel + 1) (by have := heb.1; have := (hkept.le (buildItems_adds d _ _)).1; omega)
    rw [snapshotAt,Read.list_known hl',if_pos (by rw [hnodes]; rfl)] at hsnap
    obtain ⟨parts,hparts,heq⟩ := Read.bind_ok.mp hsnap
    exact ⟨lc.items,parts,members_behind hbehind hl',hparts,Read.pure_ok.mp heq⟩
  cases form with
  | text | flag =>
    obtain ⟨e,he⟩ := Kind.keeps_ofDatum k f d
    exact absurd (h.trans he) (hopens.not_datum e)
  | child =>
    simp only [Holds,HoldsChild] at h
    by_cases htruth : d.truth = true
    · rw [if_pos htruth] at h
      obtain ⟨m,e,heb,rfl,hkept⟩ := h
      cases hopens.1
      rw [part_child hslot hd,if_pos htruth]
      refine ⟨e,_,heb,.node hkept,?_⟩
      intro u F fuel E hu hfuel hw
      exact .inr ⟨m,rfl,hw fuel (by have := heb.1; have := hkept.nodes_lt.2; omega)⟩
    · rw [if_neg htruth] at h
      exact absurd h (hopens.not_datum .null)
  | children =>
    obtain ⟨e,below,heb,hspans,hreads⟩ := hlist rfl h
    exact ⟨e,below,heb,hspans,hreads⟩
  | formatting =>
    obtain ⟨e,below,heb,hspans,hreads⟩ := hlist rfl h
    exact ⟨e,below,heb,hspans,hreads⟩

theorem Slotted.spans (h : Slotted p t n k fields form f d a b v) (hslot : .field form f shown ∈ k.layout)
    (hd : lookupLast f.word fields = some d) (hopens : t.Opens v w) :
    ∃ e below d', w.stop e ≤ b ∧ Spans p t a e below w d' := by
  unfold Slotted at h
  cases hr : respaced k fields f with
  | some present =>
    rw [hr] at h
    obtain ⟨l,items,hv,-,-,hl,-⟩ := h
    exact absurd rfl (hopens.not_plain hv hl)
  | none =>
    rw [hr] at h
    obtain ⟨e,below,heb,hspans,-⟩ := h.spans hslot hr hd hopens
    exact ⟨e,below,_,heb,hspans⟩

/-- A part of a node that was built. -/
theorem Spans.field (h : Spans p t a b levels (.node n) e) (hstep : t.Step (.node n) key w) :
    ∃ x y below d, Parted p t a b levels (.node n) e key w x y below d := by
  cases h with
  | @node _ d parent place kept =>
    obtain ⟨fields,k,c,rfl,hg⟩ := kept.grown
    obtain ⟨c',slots,form,f,shown,v,rfl,hc,hlayout,hslot,hv,hopens⟩ := hstep.field
    cases hc.symm.trans hg.cell
    cases hg.layout.symm.trans hlayout
    obtain ⟨hint,hr,d₀,x₀,y₀,-,-,hh₀⟩ := hg.holds hslot hv hopens.not_datum (fun _ _ hv hl => hopens.not_plain hv hl)
    have hform := hh₀.isPart hopens.not_datum
    obtain ⟨d,v',x,y,hd,hx,hy,hv',hh,hothers⟩ := hg.toPlanted.around hint hslot hform hr
    cases hv.symm.trans hv'
    obtain ⟨z,below,hzy,hspans,hreads⟩ := hh.spans hslot hr hd hopens
    have hfrom : a ≤ ⟨a.nodes + 1,a.lists,a.views⟩ := ⟨Nat.le_succ _,Nat.le_refl _,Nat.le_refl _⟩
    have hlt := kept.nodes_lt
    have hxn : a.nodes + 1 ≤ x.nodes := hx.1
    refine ⟨x,z,below,_,hspans,Mark.le_trans hfrom hx,Mark.le_trans hzy hy,?_,?_,?_⟩
    · rintro _ ⟨⟩
      omega
    · intro key' w' hne hstep'
      obtain ⟨c',slots,form',g,shown',v',rfl,hc',hlayout',hslot',hv',hopens'⟩ := hstep'.field
      cases hc.symm.trans hc'
      cases hlayout.symm.trans hlayout'
      have hfg : g ≠ f := by
        rintro rfl
        exact hne rfl
      obtain ⟨d',v'',x',y',hd',hv'',haside,hh'⟩ := hothers hslot' hfg
      cases hv'.symm.trans hv''
      obtain ⟨z',below',d'',hzy',hspans'⟩ := hh'.spans hslot' hd' hopens'
      have hle := Mark.le_trans (Value.le_stop w z) hzy
      have hle' := Mark.le_trans (Value.le_stop w' z') hzy'
      refine ⟨x',z',below',d'',hspans',Mark.le_trans hfrom haside.1,Mark.le_trans hle' haside.2.1,?_⟩
      exact haside.2.2.imp (Mark.le_trans hle') (Mark.le_trans hle)
    · intro u F G keys E hu hF _ hw fuel hfuel
      obtain _ | fuel := fuel
      · omega
      obtain ⟨c',hc',hkeeps⟩ := hu.keeps hg.cell (fun _ hfree => by
        have hin := hF.attr (by omega) (by omega) hfree
        omega)
      rw [settled_record hg.kindOf hint,Datum.graft_field (lookup_gathered (slot_field_mem hslot))]
      have hpart : u.WritesField fuel form v _ := hreads (hopens.drifts hu) (by have := hy.1; omega) hw
      have hrun := hg.toPlanted.graft hint hc' hkeeps hslot hform (fun hslot' hne => ?_) hv hpart
      · rw [settled_record hg.kindOf hint,Datum.graft_field (lookup_gathered (slot_field_mem hslot))] at hrun
        exact hrun
      · obtain ⟨d',v',x',y',hd',hv',haside,hh'⟩ := hothers hslot' hne
        have hfrom' : a.nodes + 1 ≤ x'.nodes := haside.1.1
        have hto' := haside.2.1.1
        exact ⟨v',hv',hh'.writes_drift hslot' hd' (by omega) hu
          ((hF.part (Mark.le_trans hfrom haside.1) haside.2.1).avoids (haside.2.2.imp_right (Mark.le_trans hzy)))⟩

theorem Spans.step (h : Spans p t a b levels v e) (hstep : t.Step v key w) :
    ∃ x y below d, Parted p t a b levels v e key w x y below d := by
  cases v with
  | node n => exact h.field hstep
  | list l =>
    cases hstep with
    | item cell member => exact h.item cell member
  | _ => cases hstep

section Paths
variable {v w : Value} {keys keys' : List Key} {levels : Nat} {e E : Datum}

theorem Spans.within (h : Spans p t a b levels v e) (hleads : t.Leads v keys w) :
    ∃ x y below d, Spans p t x y below w d ∧ a ≤ x ∧ y ≤ b := by
  induction hleads generalizing a b levels e with
  | here v => exact ⟨a,b,levels,e,h,Mark.le_refl a,Mark.le_refl b⟩
  | down step rest ih =>
    obtain ⟨x,y,below,d,hparted⟩ := h.step step
    obtain ⟨x',y',below',d',hspans,hx,hy⟩ := ih hparted.part
    exact ⟨x',y',below',d',hspans,Mark.le_trans hparted.from_le hx,Mark.le_trans hy hparted.to_le⟩

theorem Spans.index (h : Spans p t a b levels v e) (hleads : t.Leads v keys (.node z)) :
    a.nodes ≤ z.index ∧ z.index < b.nodes := by
  obtain ⟨x,y,below,d,hspans,hx,hy⟩ := h.within hleads
  cases hspans with
  | node kept =>
    obtain ⟨hfirst,hlt⟩ := kept.nodes_lt
    have := hx.1
    have := hy.1
    omega

theorem Spans.cell (h : Spans p t a b levels v e) (hleads : t.Leads v keys (.node z)) : ∃ c, t.nodes[z.index]? = some c := by
  obtain ⟨x,y,below,d,hspans,-⟩ := h.within hleads
  cases hspans with
  | node kept =>
    obtain ⟨_,_,c,-,hg⟩ := kept.grown
    exact ⟨c,hg.cell⟩

theorem Spans.leads (h : Spans p t a b levels v e) (hleads : t.Leads v keys (.node z)) (hu : t.GrowsOff z u) :
    u.Leads v keys (.node z) := by
  generalize hw : Value.node z = w at hleads
  induction hleads generalizing a b levels e with
  | here v => exact .here v
  | down step rest ih =>
    subst hw
    obtain ⟨x,y,below,d,hparted⟩ := h.step step
    have hindex := hparted.part.index rest
    exact .down (step.growsOff hu (fun hv => by have := hparted.inside hv; omega)) (ih hparted.part rfl)

theorem Spans.graft (h : Spans p t a b levels v e) (hleads : t.Leads v keys (.node z))
    (hu : t.GrowsOff z u) (hz : u.Writes F (.node z) E) : u.Writes (F + levels) v (e.graft keys E) := by
  generalize hw : Value.node z = w at hleads
  induction hleads generalizing a b levels e with
  | here v =>
    subst hw
    intro fuel hfuel
    exact hz fuel (by omega)
  | down step rest ih =>
    subst hw
    obtain ⟨x,y,below,d,hparted⟩ := h.step step
    have hindex := hparted.part.index rest
    exact hparted.grafts hu.drifts (Freedom.whole_confined hindex.1 (Nat.lt_of_lt_of_le hindex.2 (Value.le_stop _ y).1))
      (fun _ h => h) (ih hparted.part rfl)

theorem Spans.apart (h : Spans p t a b levels v e) (hz : t.Leads v keys (.node z)) (hw : t.Leads v keys' w)
    (hnot : ¬ keys <+: keys') (hnot' : ¬ keys' <+: keys) :
    ∃ x y below d, Spans p t x y below w d ∧ y ≤ b ∧ (z.index < x.nodes ∨ y.nodes ≤ z.index) := by
  generalize hq : Value.node z = q at hz
  induction hz generalizing a b levels e keys' with
  | here v => exact absurd List.nil_prefix hnot
  | @down v w₁ _ key keys step rest ih =>
    subst hq
    cases hw with
    | here v => exact absurd List.nil_prefix hnot'
    | @down _ w₂ _ key' keys' step' rest' =>
      obtain ⟨x,y,below,d,hparted⟩ := h.step step
      by_cases hkey : key' = key
      · subst hkey
        cases step.unique step'
        obtain ⟨x',y',below',d',hspans,hy,hapart⟩ := ih hparted.part rest' (fun hp => hnot (List.cons_prefix_cons.mpr ⟨rfl,hp⟩))
          (fun hp => hnot' (List.cons_prefix_cons.mpr ⟨rfl,hp⟩)) rfl
        exact ⟨x',y',below',d',hspans,Mark.le_trans hy hparted.to_le,hapart⟩
      · obtain ⟨x',y',below',d',hother,haside⟩ := hparted.others hkey step'
        obtain ⟨x'',y'',below'',d'',hspans,hx'',hy''⟩ := hother.within rest'
        have hindex := hparted.part.index rest
        refine ⟨x'',y'',below'',d'',hspans,Mark.le_trans hy'' haside.2.1,?_⟩
        rcases haside.2.2 with h | h
        · exact .inr (Nat.le_trans hy''.1 (Nat.le_trans h.1 hindex.1))
        · exact .inl (Nat.lt_of_lt_of_le hindex.2 (Nat.le_trans h.1 hx''.1))

theorem Spans.growsOff (h : Spans p t a b levels v e) (hu : t.GrowsOff z u) (hb : b ≤ t.mark)
    (hz : z.index < a.nodes ∨ b.nodes ≤ z.index) : Spans p u a b levels v e := by
  have hagree := hu.agree_apart hz hb
  cases h with
  | node kept => exact .node (kept.agree hagree)
  | list cell nodes kept last => exact .list ((hu.lists _ (Store.lt_lists_of_get cell)).trans cell) nodes (kept.agree hagree) last

theorem Spans.writes (h : Spans p t a b levels v e) : t.Writes levels v e := by
  intro fuel hfuel
  cases h with
  | node kept => exact snapshot_built _ kept (by omega)
  | list cell nodes kept last =>
    obtain _ | fuel := fuel
    · omega
    simp only [snapshotAt,Read.bind_ok,Read.list_ok]
    refine ⟨_,cell,?_⟩
    rw [if_pos (by rw [nodes]; rfl)]
    exact Read.bind_ok.mpr ⟨_,snapshot_row (fun d _ => snapshot_built d) kept (by omega),rfl⟩

theorem Spans.written (h : Spans p t a b levels v e) (hb : b ≤ t.mark) : Written p t v e := by
  cases h with
  | node kept => exact .node kept hb.1
  | list cell nodes kept last => exact .list cell nodes kept hb.1

theorem Spans.levels_le (h : Spans p t a b levels v e) : levels ≤ b.nodes + 1 := by
  cases h <;> omega

theorem Store.Writes.snapshot (h : t.Writes levels v e) (hlevels : levels ≤ t.depth) : snapshot v t = .ok e :=
  h _ hlevels

theorem Store.Writes.view {w : ViewId} {vc : ViewCell} (h : t.Writes levels (.list l) e) (hw : t.views[w.index]? = some vc)
    (htarget : vc.target = .list l) : t.Writes (levels + 1) (.view w) e := by
  intro fuel hfuel
  obtain _ | fuel := fuel
  · omega
  unfold snapshotAt
  dsimp only
  rw [Read.view_known hw,htarget]
  exact h fuel (by omega)

end Paths

theorem newDocument_spans {source : String} {s : Store} {w : ViewId} (h : newDocument source p s = .ok (.view w) t) :
    ∃ root whole a b levels vc lc, Spans p t a b levels (.list root) whole ∧ b ≤ t.mark ∧
      t.views[w.index]? = some vc ∧ vc.target = .list root ∧ vc.extra = [] ∧ t.lists[root.index]? = some lc := by
  obtain ⟨d,w',root,a,b,vs,shown,-,heq,hkept,hb,hlist,hview,hlast,-⟩ := newDocument_made h
  cases heq
  obtain ⟨ds,hrow,-⟩ := hkept.items
  exact ⟨root,_,a,b,_,_,_,.list hlist rfl hrow hlast,hb,hview,rfl,rfl,hlist⟩

end Spanning

end CodeTree
