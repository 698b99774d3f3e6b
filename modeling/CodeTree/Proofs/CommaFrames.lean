import CodeTree.Proofs.Mending
import CodeTree.Proofs.Reading
import CodeTree.Proofs.Spans

/-! # What editing a list of items between commas leaves alone

Such an edit makes new nodes, gives the list other items and formats commas of the list anew. In indented style it also formats
the node that holds the list, always at the same attribute. All else that was there stays as it was.
-/
namespace CodeTree
variable {p : Parser} {s t u : Store} {w : ViewId} {l : ListId} {n : NodeId} {f : Field} {k : Kind}
  {D D' L L' E : List Value} {style : Option Value} {base : Nat} {own : NodeId → Prop} {dir : Direction} {F : Freedom}
  {m : NodeId} {x : Value}

/-- The second formatting of some nodes, and the indentation of those that are new. -/
def Freedom.expecting (base : Nat) (own : NodeId → Prop) : Freedom :=
  ⟨fun m a => a = .field .secondFormatting ∧ own m ∨ a = .field .indent ∧ base ≤ m.index,fun _ => False,fun _ => False⟩

/-- All attributes of new nodes but the type, and the second formatting of some others. -/
def Freedom.reformatting (base : Nat) (own : NodeId → Prop) (L : List Value) : Freedom :=
  ⟨fun m a => a ≠ .field .type ∧ (base ≤ m.index ∨ a = .field .secondFormatting ∧ (own m ∨ .node m ∈ L)),fun _ => False,
    fun _ => False⟩

/-- The same, and the items of one view and of the list behind it. -/
def Freedom.commas (base : Nat) (own : NodeId → Prop) (L : List Value) (l : ListId) (w : ViewId) : Freedom :=
  ⟨(reformatting base own L).attr,fun l' => l' = l,fun w' => w' = w⟩

theorem Freedom.expecting_le : expecting base own ≤ reformatting base own L := by
  refine ⟨?_,fun _ h => h,fun _ h => h⟩
  rintro m a (⟨rfl,hown⟩ | ⟨rfl,hbase⟩)
  · exact ⟨by simp,.inr ⟨rfl,.inl hown⟩⟩
  · exact ⟨by simp,.inl hbase⟩

theorem Freedom.reformatting_le : reformatting base own L ≤ commas base own L l w :=
  ⟨fun _ _ h => h,fun _ h => h.elim,fun _ h => h.elim⟩

/-- A comma that is new, as is all that stands after it. -/
def Store.NewComma (base : Nat) (s : Store) (v : Value) : Prop :=
  ∃ m c l d, v = .node m ∧ base ≤ m.index ∧ s.nodes[m.index]? = some c ∧
    c.stored? (.field .secondFormatting) = some (.list l) ∧ s.lists[l.index]? = some d ∧
    ∀ j, .node j ∈ d.items → base ≤ j.index

theorem stable_newComma (hown : ∀ m, own m → m.index < base) (v : Value) :
    Stable (.expecting base own) (fun s => s.NewComma base v) := by
  rintro s t ⟨m,c,l,d,rfl,hm,hc,hl,hd,hitems⟩ hF
  obtain ⟨c',hc',hkeeps⟩ := hF.node hc
  obtain ⟨d',hd',hkeeps'⟩ := hF.list hd
  have hkept : ¬ (Freedom.expecting base own).attr m (.field .secondFormatting) := by
    rintro (⟨-,h⟩ | ⟨h,-⟩)
    · have := hown m h
      omega
    · cases h
  exact ⟨m,c',l,d',rfl,hm,hc',(hkeeps.stored _ hkept).trans hl,hd',fun j hj => hitems j (hkeeps'.items id ▸ hj)⟩

theorem newComma_of_build {after : Datum} {parent : Value} {place : Option Attr} (hbase : base ≤ s.nodes.size)
    (h : build (commaDatum after) parent place p s = .ok m t) : t.NewComma base (.node m) := by
  obtain ⟨fields,k,c,hd,hg⟩ := (Kept.of_run h).grown
  cases hd
  obtain rfl := hg.kind_eq (by rfl) ofWord_comma
  obtain ⟨_,_,e,_,-,hv,hle,-,hkept,hl⟩ := hg.spaced
  obtain ⟨ds,hrow,-⟩ := hkept.items
  have hle : s.nodes.size < _ := hle
  refine ⟨m,c,⟨e.lists⟩,_,rfl,?_,hg.cell,hv,hl,fun j hj => ?_⟩
  · rw [hg.first]
    exact hbase
  · obtain ⟨i,hi⟩ := List.getElem?_of_mem hj
    obtain ⟨_,x',_,-,hj,hx',-⟩ := hrow.member hi
    have hj := hj.index
    have := hx'.1
    omega

/-- A list of items between commas that a node holds, since when there were so many nodes. -/
structure CommaList (w : ViewId) (l : ListId) (n : NodeId) (f : Field) (k : Kind) (style : Option Value) (base : Nat)
    (s : Store) : Prop where
  held : Held s w l n f k .comma
  bare : ∃ c, s.views[w.index]? = some c ∧ c.style = style ∧ c.parent = none ∧ c.extra.lookup "parent" = none
  grown : base ≤ s.nodes.size

theorem stable_commaList : Stable F (CommaList w l n f k style base) := by
  rintro s t ⟨hheld,⟨c,hc,hstyle,hparent,hextra⟩,hgrown⟩ hF
  obtain ⟨d,hd,hkeeps⟩ := hF.view hc
  exact ⟨stable_held s t hheld hF,⟨d,hd,hkeeps.style.trans hstyle,hkeeps.parent.trans hparent,hkeeps.named.trans hextra⟩,
    Nat.le_trans hgrown hF.mark.1⟩

theorem CommaList.attr_parent (h : CommaList w l n f k style base s) : attr (.view w) "parent" s = .ok (.node n) := by
  obtain ⟨c,hc,-,hbare⟩ := h.bare
  exact h.held.attr_parent (by simp) hc hbare

/-- The node that an edit formats besides commas. -/
def Reformatted (n : NodeId) (style : Option Value) (m : NodeId) : Prop := m = n ∧ styleIs style "indented" = true

theorem CommaList.expected (h : CommaList w l n f k style base s) (hn : n.index < base) (hshown : s.ShowsItems w D)
    (hE : expectedItems w p s = .ok E t) :
    s.Frame (.expecting base (Reformatted n style)) t ∧ ∀ e ∈ E, e ∈ D ∨ ∃ m, e = .node m ∧ base ≤ m.index := by
  have hown : ∀ m, Reformatted n style m → m.index < base := fun m hm => hm.1 ▸ hn
  have hK : Stable (.expecting base (Reformatted n style)) (fun s => CommaList w l n f k style base s ∧ s.ShowsItems w D) :=
    stable_commaList.and (stable_showsItems id D)
  have hview : ∀ s, CommaList w l n f k style base s ∧ s.ShowsItems w D →
      ∃ c, s.views[w.index]? = some c ∧ c.form = .comma ∧ c.items = D ∧ c.style = style := by
    rintro s ⟨hs,c,hc,hitems⟩
    obtain ⟨c',hc',hform,-⟩ := hs.held.view
    cases hc.symm.trans hc'
    obtain ⟨c',hc',hstyle,-⟩ := hs.bare
    cases hc.symm.trans hc'
    exact ⟨c,hc,hform,hitems,hstyle⟩
  have hlast : ∀ s x v m rest, s.NewComma base x → attr x "second_formatting" s = .ok v → items v s = .ok (.node m :: rest) →
      (Freedom.expecting base (Reformatted n style)).attr m (.field .indent) := by
    rintro s _ v m rest ⟨j,d,l',ld,rfl,-,hd,hl,hld,hnew⟩ hv hitems
    cases (attr_stored hd hl).symm.trans hv
    obtain ⟨ld',hld',heq⟩ := items_list_ok.mp hitems
    cases hld.symm.trans hld'
    exact .inr ⟨rfl,hnew m (by rw [heq]; exact List.mem_cons_self)⟩
  have hcommas := expectedItems_gives hK (stable_newComma hown) hview
    (fun _ _ _ _ _ _ _ _ hK hb => newComma_of_build hK.1.grown hb) (fun hindented s m hK hm => by
      cases hK.1.attr_parent.symm.trans hm
      exact .inl ⟨rfl,rfl,hindented⟩) (fun _ => hlast) (fun _ h => h)
  obtain ⟨hframe,-,all,hall,rfl⟩ := Edit.Meets.frame_ok hcommas ⟨h,hshown⟩ hE
  have hnew : ∀ e ∈ all, e ∈ D ∨ ∃ m, e = .node m ∧ base ≤ m.index := by
    intro e he
    rcases hall.mem e he with he | ⟨m,_,_,_,rfl,hm,-⟩
    · exact .inl he
    · exact .inr ⟨m,rfl,hm⟩
  refine ⟨hframe,fun e he => hnew e ?_⟩
  split at he
  · exact List.dropLast_subset _ he
  · exact he

/-- An item that an edit does not format: it belongs to some list, is new or is no comma. -/
def Store.Ours (base : Nat) (L : List Value) (s : Store) (x : Value) : Prop :=
  x ∈ L ∨ (∃ m, x = .node m ∧ base ≤ m.index) ∨ s.Item "comma" x

theorem Store.Ours.frame (h : s.Ours base L x) (hF : s.Frame F t) (ht : F.KeepsTypes) : t.Ours base L x :=
  h.imp_right (fun h => h.imp_right (fun h => h.frame hF ht))

/-- One pass over the list. -/
theorem CommaList.pass {fuel : Nat} (h : CommaList w l n f k style base s) (hn : n.index < base) (hshown : s.ShowsItems w D)
    (hlist : s.HasItems l .nodes L') (hD : ∀ x ∈ D, s.Ours base L x) (hL : ∀ x ∈ L', s.Ours base L x)
    (hpass : bringInStep fuel dir w p s = .ok () t) :
    s.Frame (.commas base (Reformatted n style) L l w) t ∧ t.ShowsItems w D ∧
      ∃ L'', t.HasItems l .nodes L'' ∧ (∀ x ∈ L'', t.Ours base L x) ∧ (dir = .adding → L'.Sublist L'') := by
  have hframe : ∀ {E u}, expectedItems w p s = .ok E u → s.Frame (.reformatting base (Reformatted n style) L) u :=
    fun hE => (h.expected hn hshown hE).1.mono Freedom.expecting_le
  have htype : ∀ m, ¬ (Freedom.reformatting base (Reformatted n style) L).attr m (.field .type) := fun m hm => hm.1 rfl
  obtain ⟨E,u,c,lc,hE,hc,hlc,-,halign⟩ := bringInStep_ok (l := l) (j := 0) (fun es u hes => by
    obtain ⟨c,hc,hform,htarget,-⟩ := (stable_commaList s u h (hframe hes)).held.view
    exact ⟨c,hc,htarget,fun lc _ => settledItems_zero (by rw [hform]; simp)⟩) hpass
  have hu := hframe hE
  obtain ⟨c',hc',hform,-⟩ := (stable_commaList s u h hu).held.view
  cases hc.symm.trans hc'
  obtain ⟨lc',hlc',hflavour,rfl⟩ := hlist.frame hu id
  cases hlc.symm.trans hlc'
  rw [hform,List.drop_zero,List.take_zero,List.nil_append] at halign
  have hours : ∀ x, x ∈ lc.items ∨ x ∈ E → u.Ours base L x := by
    rintro x (hx | hx)
    · exact (hL x hx).frame hu htype
    · rcases (h.expected hn hshown hE).2 x hx with hx | hx
      · exact (hD x hx).frame hu htype
      · exact .inr (.inl hx)
  have hpairs : Gives (.reformatting base (Reformatted n style) L) (fun _ => True) (fun _ _ => True)
      (alignSeparators .comma (planOf dir c u lc.items E).pairs) := by
    refine alignSeparators_gives (fun _ _ h _ => h) (fun q hq m hm => ⟨by simp,?_⟩) (fun _ h => h)
    obtain ⟨hq₁,-,hboth⟩ := planOf_pairs q hq
    rcases hours q.1 (.inl hq₁) with hL | ⟨j,hj,hbase⟩ | hitem
    · exact .inr ⟨rfl,.inr (hm ▸ hL)⟩
    · rw [hm] at hj
      cases hj
      exact .inl hbase
    · obtain ⟨kind,type,hgoes,hne⟩ := hitem
      rw [hform] at hboth
      unfold bothSeparate at hboth
      rw [Read.bind_known hgoes.hasType] at hboth
      obtain ⟨b,-,hboth⟩ := Read.bind_ok.mp hboth
      have hreads := (Bool.and_eq_true_iff.mp (Read.pure_ok.mp hboth)).1
      exact absurd (Value.reads_iff.mp hreads) hne
  have hheld := Store.holding_items (s := u) ⟨lc,hlc,hflavour,rfl⟩ (planOf dir c u lc.items E).result
  have hdone := (Edit.Meets.frame_ok hpairs trivial halign).1
  have hholding := Store.frame_holding (s := u) (F := .commas base (Reformatted n style) L l w) (l := l) rfl
    (planOf dir c u lc.items E).result
  have hall := ((hu.mono Freedom.reformatting_le).trans hholding).trans (hdone.mono Freedom.reformatting_le)
  refine ⟨hall,?_,_,hheld.frame hdone id,fun x hx => ?_,?_⟩
  · exact ((stable_showsItems id D s u hshown hu).frame (Store.frame_holding (F := ⟨fun _ _ => False,fun l' => l' = l,fun _ => False⟩) rfl _) id).frame hdone id
  · exact (((hours x (planOf_origin hx)).frame hholding htype).frame hdone htype)
  · rintro rfl
    exact augment_sublist _ _

theorem CommaList.passes {dirs : List Direction} (hpasses : Passes p w dirs s u) (h : CommaList w l n f k style base s)
    (hn : n.index < base) (hshown : s.ShowsItems w D) (hlist : s.HasItems l .nodes L') (hD : ∀ x ∈ D, s.Ours base L x)
    (hL : ∀ x ∈ L', s.Ours base L x) :
    s.Frame (.commas base (Reformatted n style) L l w) u ∧
      ∃ L'', u.HasItems l .nodes L'' ∧ ((∀ dir ∈ dirs, dir = .adding) → L'.Sublist L'') := by
  have htype : ∀ m, ¬ (Freedom.commas base (Reformatted n style) L l w).attr m (.field .type) := fun m hm => hm.1 rfl
  induction hpasses generalizing L' with
  | nil s => exact ⟨.refl _ s,L',hlist,fun _ => List.Sublist.refl _⟩
  | cons hpass _ ih =>
    obtain ⟨hframe,hshown,L'',hlist,hL,hsub⟩ := h.pass hn hshown hlist hD hL hpass
    obtain ⟨hrest,L₃,hlist,hsub'⟩ := ih (stable_commaList _ _ h hframe) hshown hlist
      (fun x hx => (hD x hx).frame hframe htype) hL
    exact ⟨hframe.trans hrest,L₃,hlist,fun hdirs =>
      (hsub (hdirs _ List.mem_cons_self)).trans (hsub' (List.forall_mem_cons.mp hdirs).2)⟩

theorem itemFrom_node_within (w : ViewId) (m : NodeId) : Within F (itemFrom w (.node m)) := by
  have hholder : ∀ parent place, Within F (setHolder (.node m) parent place) := fun parent place => .setHolder rfl parent place
  have hlist : ∀ ofText listOfText parent place, Within F (listFrom ofText listOfText (.node m) parent place) :=
    fun _ _ _ _ => .bind (hholder _ _) (fun _ => .bind (.newLooseList _) (fun _ => .pure _))
  have hfor : ∀ receiver parent place, Within F (listFor receiver (.node m) parent place) := by
    intro receiver parent place
    cases receiver with
    | node j => exact hlist (childOfText j) (listOfText j) parent place
    | list j => exact .bind (.read _) (fun _ => .ite (hlist _ _ _ _) (.throw _))
    | view j => exact .bind (.read _) (fun _ => .ite (hlist _ _ _ _) (.throw _))
    | _ => exact .throw _
  unfold itemFrom
  refine .bind (.read _) (fun c => ?_)
  cases c.form with
  | document => exact .bind (hholder _ _) (fun _ => .pure _)
  | dotted => exact .bind (.read _) (fun _ => (.throw _ : Within F (throw .wrongSort : Edit Value)))
  | _ =>
    refine .bind (.read _) (fun _ => .bind (hfor _ _ _) (fun _ => .bind (.read _) (fun found => ?_)))
    cases found with
    | nil => exact .throw _
    | cons => exact .pure _

theorem itemsFromEach_nodes_within {vs : List Value} (hvs : ∀ v ∈ vs, ∃ m, v = .node m) : Within F (itemsFromEach w vs) := by
  induction vs with
  | nil => exact .pure _
  | cons v vs ih =>
    obtain ⟨m,rfl⟩ := hvs v List.mem_cons_self
    exact .bind (itemFrom_node_within w m) (fun _ => .bind (ih (List.forall_mem_cons.mp hvs).2) (fun _ => .pure _))

/-- A change of a list of items between commas with nodes. -/
theorem Change.run_commas {change : Change} (h : CommaList w l n f k style base s) (hn : n.index < base)
    (hshown : s.ShowsItems w D) (hD : ∀ x ∈ D, x ∈ L' ∧ ∃ m, x = .node m) (hlist : s.HasItems l .nodes L')
    (hL : ∀ x ∈ L', s.Ours base L x)
    (hvalues : ∀ v ∈ change.values s, (∃ m, v = .node m) ∧ s.Tells "comma" v) (hrun : change.run w p s = .ok () u) :
    s.Frame (.commas base (Reformatted n style) L l w) u ∧
      ∃ L'', u.HasItems l .nodes L'' ∧ ((∀ dir ∈ change.passes, dir = .adding) → L'.Sublist L'') := by
  have hwithin : ∀ {F xs t}, itemsFromEach w (change.values s) p s = .ok xs t → s.Frame F t :=
    fun hxs => (Edit.Meets.frame_ok (itemsFromEach_nodes_within (fun v hv => (hvalues v hv).1)) trivial hxs).1
  obtain ⟨xs,t,D',hxs,hmakes,hpasses⟩ := Change.run_ok hshown (fun x hx => (hD x hx).2)
    (fun _ hc _ => h.held.plain (by decide) hc) (fun xs t hxs => hshown.frame (hwithin (F := .nothing) hxs) id) hrun
  have hsound : ∀ v ∈ change.values s, s.Sound "comma" v := by
    intro v hv
    obtain ⟨⟨m,rfl⟩,htells⟩ := hvalues v hv
    exact htells
  obtain ⟨-,-,hitems⟩ := Edit.Meets.frame_ok (itemsFromEach_sound h.held hsound) rfl hxs
  have hstart : s.Frame (.commas base (Reformatted n style) L l w) (t.showing w D') :=
    (hwithin hxs).trans (Store.frame_showing rfl D')
  have htype : ∀ m, ¬ (Freedom.commas base (Reformatted n style) L l w).attr m (.field .type) := fun m hm => hm.1 rfl
  have hlist' : (t.showing w D').HasItems l .nodes L' := (hlist.frame (hwithin (F := .nothing) hxs) id :)
  have hD' : ∀ x ∈ D', (t.showing w D').Ours base L x := by
    intro x hx
    rcases hmakes.mem hx with hx | hx
    · exact (hL x (hD x hx).1).frame hstart htype
    · exact .inr (.inr ((hitems x hx).frame (Store.frame_showing (F := .commas base (Reformatted n style) L l w) rfl D') htype))
  have hshown' := (hshown.frame (hwithin (F := .nothing) hxs) id).other D'
  obtain ⟨hframe,hdone⟩ := CommaList.passes hpasses (stable_commaList s _ h hstart) hn hshown' hlist' hD'
    (fun x hx => (hL x hx).frame hstart htype)
  exact ⟨hstart.trans hframe,hdone⟩

theorem Kind.word_comma (h : k.word = "comma") : k = .comma := by
  cases k <;> first | rfl | exact absurd h (by decide)

section Fresh
variable {source : String} {r o : Store} {top : ViewId} {root : ListId} {keys : List Key} {c : NodeCell}

/-- A list of items between commas in a new document, and what else the node that holds it was built with: the other slots lie
apart from the list. -/
theorem newDocument_commas (hmade : newDocument source p r = .ok (.view top) o) (hroot : behind (.view top) o = .ok (.list root))
    (hreach : o.Reaches root keys (.node n)) (hc : o.nodes[n.index]? = some c) (hthrough : c.kind.viewForm f = some .comma)
    (hw : c.stored? (.field f) = some (.view w)) :
    ∃ l L D style fields, CommaList w l n f c.kind style 0 o ∧ o.ShowsItems w D ∧ (∀ x ∈ D, x ∈ L ∧ ∃ m, x = .node m) ∧
      o.HasItems l .nodes L ∧ (∀ m, .node m ∈ L → n.index < m.index) ∧ ∀ {form g shown}, .field form g shown ∈ c.kind.layout → g ≠ f →
        ∃ d v x y, lookupLast g.word fields = some d ∧ c.stored? (.field g) = some v ∧
          Slotted p o n c.kind fields form g d x y v ∧ y.nodes ≤ o.nodes.size ∧ n.index < x.nodes ∧
          (∀ m, .node m ∈ L → m.index < x.nodes ∨ y.nodes ≤ m.index) ∧ (l.index < x.lists ∨ y.lists ≤ l.index) := by
  obtain ⟨parent,place,a,b,fields,hg,made⟩ := newDocument_planted hmade hroot hreach hc
  have hdata : ∀ d, Value.view w ≠ .ofDatum d := fun d h => by cases d <;> cases h
  obtain ⟨form,shown,hslot⟩ := mem_slotFields (hg.slot_of_view hw)
  obtain ⟨hk,hr,-⟩ := hg.holds hslot hw hdata (fun _ _ h => by cases h)
  have hform : form = .children := by
    have hfit := layout_fits c.kind _ hslot
    simp only [Slot.fits,hthrough,Option.isNone_some,Bool.false_or,Bool.and_eq_true,beq_iff_eq] at hfit
    exact hfit.1.1.1.1
  subst hform
  obtain ⟨d,v,x,y,hd,hx,hy,hv,hholds,hothers⟩ := hg.around hk hslot rfl hr
  cases hw.symm.trans hv
  obtain ⟨L,e,he,hkept,hlt,hlist,hshows⟩ := hholds
  rw [hthrough] at hshows
  obtain ⟨u,w',D,style,heq,-,-,hcell,hviewed,hagree⟩ := hshows
  cases heq
  obtain ⟨ds,hrow,-⟩ := hkept.items
  -- The nodes of the list lie in the range of the slot.
  have hrange : ∀ m, .node m ∈ L → x.nodes ≤ m.index ∧ m.index < y.nodes := by
    intro m hm
    obtain ⟨i,hi⟩ := List.getElem?_of_mem hm
    obtain ⟨_,x',y',-,hm,hx',hy'⟩ := hrow.member hi
    have := hm.nodes_lt
    have := hx'.1
    have := hy'.1
    have := he.1
    omega
  have hxe : x ≤ e := hkept.le (buildItems_adds _ _ _)
  refine ⟨⟨e.lists⟩,L,D,style,fields,⟨⟨⟨_,hcell,rfl,rfl,rfl⟩,⟨_,hlist,rfl,rfl,rfl⟩,⟨c,hc,rfl⟩,hthrough⟩,
    ⟨_,hcell,rfl,rfl,rfl⟩,Nat.zero_le _⟩,⟨_,hcell,rfl⟩,fun z hz => ?_,⟨_,hlist,rfl,rfl⟩,fun m hm => ?_,fun {form g shown} hslot' hne => ?_⟩
  · obtain ⟨lc,hlc,hD⟩ := significant_ok (underlying_list _ u) (hviewed.others rfl)
    have hsame := hagree.lists e.lists hxe.2.1 (Nat.lt_succ_self _)
    cases hlc.symm.trans (hsame.symm.trans hlist)
    obtain ⟨ms,rfl,-⟩ := hrow.siblings (fun d _ => built_tree d) (Nat.zero_le _) (Nat.le_add_left e.nodes x.nodes)
    have hz := (withoutSeparators_mem hD z hz).1
    obtain ⟨m,-,rfl⟩ := List.mem_map.mp hz
    exact ⟨hz,m,rfl⟩
  · rw [hg.first]
    exact Nat.lt_of_lt_of_le (Nat.lt_succ_self _) (Nat.le_trans hx.1 (hrange m hm).1)
  · obtain ⟨d',v,x',y',hd',hv,⟨hx',hy',haside⟩,hslotted⟩ := hothers hslot' hne
    have hstart : n.index < x'.nodes := by
      rw [hg.first]
      exact hx'.1
    refine ⟨d',v,x',y',hd',hv,hslotted,Nat.le_trans hy'.1 made,hstart,fun m hm => ?_,?_⟩
    · have := hrange m hm
      rcases haside with h | h
      · have := h.1
        omega
      · have := h.1
        omega
    · rcases haside with h | h
      · have := h.2.1
        have := hxe.2.1
        exact .inr (by simp only; omega)
      · have := h.2.1
        exact .inl (by simp only; omega)

/-- The formatting that stands right before a field in a layout. -/
def formattingBefore (f : Field) : List Slot → Option Field
  | .field .formatting g _ :: .field form h shown :: rest =>
    if h = f then some g else formattingBefore f (.field form h shown :: rest)
  | _ :: rest => formattingBefore f rest
  | [] => none

/-- The kinds that have their second formatting right before a list of items between commas. -/
def Kind.opensSecond : Kind → Bool
  | .call | .dict | .importStmt | .list | .set | .tuple => true
  | _ => false

theorem formattingBefore_commas : ∀ q ∈ commaPlaces,
    (formattingBefore q.2 q.1.layout = some .secondFormatting ↔ q.1.opensSecond = true) := by decide

/-- The data of an attribute of a node, the same in two stores. -/
def Store.Same (s t : Store) (n : NodeId) (form : Form) (g : Field) : Prop :=
  ∃ v e, look n (.field g) s = .ok v ∧ look n (.field g) t = .ok v ∧ s.WritesField s.depth form v e ∧
    t.WritesField t.depth form v e

/-- A parser that takes every text for two names in brackets. -/
def bracketsParser : Parser := fun _ => .ok (.list [.record [("type",.text "list"),
  ("first_formatting",.list []),("second_formatting",.list []),("third_formatting",.list []),("fourth_formatting",.list []),
  ("value",.list [nameDatum "a",commaDatum spaceDatum,
    nameDatum "b"])]])

/-- A document of such a list, to which its first item is appended once more. -/
theorem brackets_appended : ∃ top root keys o c vc u, newDocument "" bracketsParser .empty = .ok (.view top) o ∧
    behind (.view top) o = .ok (.list root) ∧ o.Reaches root keys (.node ⟨0⟩) ∧ o.nodes[0]? = some c ∧ c.kind = .list ∧
    c.stored? (.field .value) = some (.view ⟨1⟩) ∧ o.views[1]? = some vc ∧ vc.target = .list ⟨4⟩ ∧ o.Member top ⟨1⟩ ∧
    (∀ v ∈ (Change.append (.node ⟨1⟩)).values o, (∃ m, v = .node m) ∧ o.Tells "comma" v) ∧
    (Change.append (.node ⟨1⟩)).run ⟨1⟩ bracketsParser o = .ok () u := by
  have hruns : (newDocument "").ensures bracketsParser .empty (fun v t =>
      decide (⟨0⟩ ∈ t.nodesOf v) && decide (⟨1⟩ ∈ t.below everywhere ⟨0⟩) && (t.views[1]?).any (·.target.is (.list ⟨4⟩)) &&
      (t.nodes[1]?).any (fun c => (c.stored? (.field .type)).any (·.reads "name")) &&
      (t.nodes[0]?).any (fun c => c.kind == .list && (c.stored? (.field .value)).any (·.is (.view ⟨1⟩))) &&
      ((Change.append (.node ⟨1⟩)).run ⟨1⟩).succeeds bracketsParser t) = true := by decide +kernel
  obtain ⟨v,t,hmade,hfacts⟩ := Edit.ensures_iff.mp hruns
  obtain ⟨top,root,height,rfl,hdoc⟩ := newDocument_document hmade
  simp only [Bool.and_eq_true,decide_eq_true_eq,Option.any_eq_true,beq_iff_eq,Value.is_list,Value.is_view,Value.reads_iff,
    exists_eq_right,Edit.succeeds_iff] at hfacts
  obtain ⟨⟨⟨⟨⟨hrow,hbelow⟩,vc,hvc,hitems⟩,e,he,hname⟩,c,hc,hkind,hw⟩,⟨⟩,u,hruns⟩ := hfacts
  have htells : t.Tells "comma" (.node ⟨1⟩) := ⟨e.kind,_,⟨⟨1⟩,e,rfl,he,rfl,hname⟩,fun hcomma => by simp at hcomma⟩
  obtain ⟨ms,hms,hl,-⟩ := hdoc.nodes
  obtain ⟨i,hi⟩ := List.getElem?_of_mem (hms ▸ hrow)
  refine ⟨top,root,[.index i],t,c,vc,u,hmade,hdoc.rooted,
    .item .root hl (by rw [List.getElem?_map,hi]; rfl),hc,hkind,hw,hvc,hitems,⟨⟨0⟩,hrow,.step .self hbelow⟩,?_,hruns⟩
  intro v hv
  obtain rfl := List.mem_singleton.mp hv
  exact ⟨⟨_,rfl⟩,htells⟩

/-- What a change of a list of items between commas with nodes leaves alone in the node that holds the list, in a new document.
It is all but the list and, unless the style is flat, the second formatting. So all is left alone but the list and the formatting
right before it, if the style is flat or the second formatting stands there. -/
theorem comma_edit_local {vc : ViewCell} {change : Change} (hmade : newDocument source p r = .ok (.view top) o)
    (hroot : behind (.view top) o = .ok (.list root)) (hreach : o.Reaches root keys (.node n))
    (hc : o.nodes[n.index]? = some c) (hthrough : c.kind.viewForm f = some .comma)
    (hw : c.stored? (.field f) = some (.view w)) (hvc : o.views[w.index]? = some vc) (hgrows : o.Grows s)
    (hvalues : ∀ v ∈ change.values s, (∃ m, v = .node m) ∧ s.Tells "comma" v) (hrun : change.run w p s = .ok () u) :
    (∀ form g shown, .field form g shown ∈ c.kind.layout → g ≠ f → (g = .secondFormatting → vc.style = some (.text "flat")) →
      s.Same u n form g) ∧
    (vc.style = some (.text "flat") ∨ c.kind.opensSecond = true → ∀ form g shown, .field form g shown ∈ c.kind.layout →
      g ≠ f → some g ≠ formattingBefore f c.kind.layout → s.Same u n form g) := by
  obtain ⟨l,L,D,style,fields,hlist,hshown,hD,hitems,hafter,hothers⟩ := newDocument_commas hmade hroot hreach hc hthrough hw
  obtain ⟨vc',hvc',rfl,-⟩ := hlist.bare
  cases hvc.symm.trans hvc'
  have hns : s.nodes[n.index]? = some c := (hgrows.nodes _ (Store.lt_nodes_of_get hc)).trans hc
  have hn : n.index < s.nodes.size := Store.lt_nodes_of_get hns
  have hsize : o.nodes.size ≤ s.nodes.size := hgrows.mark.1
  have hs := stable_commaList (F := .nothing) o s hlist (hgrows.frame _)
  obtain ⟨hframe,-⟩ := Change.run_commas (L := L) ⟨hs.held,hs.bare,Nat.le_refl _⟩ hn
    (hshown.frame (hgrows.frame .nothing) id) hD
    (hitems.frame (hgrows.frame .nothing) id) (fun _ hx => .inl hx) hvalues hrun
  have hsame : ∀ form g shown, .field form g shown ∈ c.kind.layout → g ≠ f →
      (g = .secondFormatting → vc.style = some (.text "flat")) → s.Same u n form g := by
    intro form g shown hslot hne hflat
    obtain ⟨d,v,x,y,hd,hv,hslotted,hy,hx,hapart,hbeside⟩ := hothers hslot hne
    obtain ⟨c',hc',hkeeps⟩ := hframe.node hns
    have hkept : ¬ (Freedom.commas s.nodes.size (Reformatted n vc.style) L l w).attr n (.field g) := by
      rintro ⟨-,hold | ⟨hg,⟨-,hindented⟩ | hmem⟩⟩
      · omega
      · cases hg
        rw [hflat rfl] at hindented
        revert hindented
        decide
      · exact Nat.lt_irrefl _ (hafter n hmem)
    have havoids : (Freedom.commas s.nodes.size (Reformatted n vc.style) L l w).Avoids x y := by
      refine ⟨fun {m a} hxm hmy hfree => ?_,fun {l'} hxl hly hfree => ?_⟩
      · rcases hfree with ⟨-,hnew | ⟨-,⟨rfl,-⟩ | hmem⟩⟩
        · omega
        · omega
        · have := hapart m hmem
          omega
      · cases hfree
        omega
    have hdrift : o.Drifts (.commas s.nodes.size (Reformatted n vc.style) L l w) s := hgrows.drifts _
    refine ⟨v,_,look_stored hns hv,look_stored hc' ((hkeeps.stored _ hkept).trans hv),
      hslotted.writes_drift hslot hd ?_ hdrift havoids,hslotted.writes_drift hslot hd ?_ (hdrift.trans hframe.drifts) havoids⟩
    · unfold Store.depth
      omega
    · have hsize' : s.nodes.size ≤ u.nodes.size := hframe.mark.1
      unfold Store.depth
      omega
  refine ⟨hsame,fun hwhere form g shown hslot hne hbefore => hsame form g shown hslot hne (fun hg => ?_)⟩
  rcases hwhere with hflat | hopens
  · exact hflat
  · exact absurd (hg ▸ ((formattingBefore_commas _ (mem_commaPlaces hthrough)).mpr hopens).symm) hbefore

theorem comma_edit_local_brackets : ∃ top o w c u, newDocument "" bracketsParser .empty = .ok (.view top) o ∧
    o.nodes[0]? = some c ∧ c.kind = .list ∧ c.stored? (.field .value) = some (.view w) ∧
    (Change.append (.node ⟨1⟩)).run w bracketsParser o = .ok () u ∧ o.Same u ⟨0⟩ .formatting .firstFormatting := by
  obtain ⟨top,root,keys,o,c,vc,u,hmade,hroot,hreach,hc,hkind,hw,hvc,-,-,hvalues,hrun⟩ := brackets_appended
  have hlocal := comma_edit_local (f := .value) hmade hroot hreach hc (by rw [hkind]; rfl) hw hvc (.refl o) hvalues hrun
  exact ⟨top,o,⟨1⟩,c,u,hmade,hc,hkind,hw,hrun,hlocal.1 _ _ .always (by rw [hkind]; decide) (by decide) (fun h => by cases h)⟩

end Fresh

end CodeTree
