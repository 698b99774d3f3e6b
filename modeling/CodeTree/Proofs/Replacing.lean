import CodeTree.Proofs.Rebuilding
import CodeTree.Proofs.Spans

/-! # Replacing a node

A node that is replaced stays where it is and is filled anew. It is then written as the node that was built in its stead
would be, and everything beside it as before. What it stored under names that its new kind does not have stays stored.
-/
namespace CodeTree

section Converting
variable {p : Parser} {s t : Store} {v : Value} {parent : Value} {place : Option Attr}

/-- What a node is to be built from: a record, or the first part of what a text is read as. -/
inductive Offers (p : Parser) : Value → Datum → Prop where
  | text {text : String} {whole d : Datum} (read : p text = .ok whole) (first : whole.follow [.index 0] = .ok d) :
      Offers p (.text text) d
  | record (fields : List (String × Datum)) : Offers p (.data (.record fields)) (.record fields)

/-- A text or a record. -/
def Value.isWritten : Value → Bool
  | .text _ | .data (.record _) => true
  | _ => false

theorem plainNodeFrom_adds (hv : v.isWritten = true) : Adds (plainNodeFrom v parent place) := by
  unfold Value.isWritten at hv
  split at hv
  · exact .bind (.bind (.parse _) (fun _ => .lift _)) (fun d => .bind (build_adds d _ _) (fun _ => .pure _))
  · exact .bind (build_adds _ _ _) (fun _ => .pure _)
  · cases hv

theorem plainNodeFrom_ok {r : Value} (hv : v.isWritten = true) (h : plainNodeFrom v parent place p s = .ok r t) :
    ∃ d n, Offers p v d ∧ build d parent place p s = .ok n t ∧ r = .node n := by
  unfold Value.isWritten at hv
  split at hv
  · next text =>
    obtain ⟨d,s₁,hd,hrest⟩ := Edit.bind_ok.mp h
    obtain ⟨whole,s₂,hwhole,hlift⟩ := Edit.bind_ok.mp hd
    obtain ⟨hfirst,rfl⟩ := Edit.lift_ok.mp hlift
    obtain ⟨hread,rfl⟩ : p text = .ok whole ∧ s₂ = s := by
      unfold Edit.parse at hwhole
      simp only [String.empty_append,String.append_empty] at hwhole
      split at hwhole
      · next heq =>
        cases hwhole
        exact ⟨heq,rfl⟩
      · cases hwhole
    obtain ⟨n,s₁,hbuild,hlast⟩ := Edit.bind_ok.mp hrest
    obtain ⟨rfl,rfl⟩ := Edit.pure_ok.mp hlast
    exact ⟨d,n,.text hread hfirst,hbuild,rfl⟩
  · next fields =>
    obtain ⟨n,s₁,hbuild,h⟩ := Edit.bind_ok.mp h
    obtain ⟨rfl,rfl⟩ := Edit.pure_ok.mp h
    exact ⟨_,n,.record fields,hbuild,rfl⟩
  · cases hv

theorem plainNodeFrom_run {d : Datum} {n : NodeId} (hv : Offers p v d) (h : build d parent place p s = .ok n t) :
    plainNodeFrom v parent place p s = .ok (.node n) t := by
  cases hv with
  | @text text whole _ hread hfirst =>
    have hparse : Edit.parse ("" ++ text ++ "") p s = .ok whole s := by
      unfold Edit.parse
      rw [String.empty_append,String.append_empty,hread]
    exact Edit.bind_ok.mpr ⟨d,s,Edit.bind_ok.mpr ⟨whole,s,hparse,Edit.lift_ok.mpr ⟨hfirst,rfl⟩⟩,
      Edit.bind_ok.mpr ⟨n,t,h,rfl⟩⟩
  | record fields => exact Edit.bind_ok.mpr ⟨n,t,h,rfl⟩

end Converting

section Replacing
variable {p : Parser} {t u : Store} {x : NodeId} {c c' : NodeCell} {v : Value} {d : Datum} {k : Kind}
  {fields : List (String × Datum)} {base : Mark}

/-- A node has been filled anew with what a datum is written back as, from cells that came after all others. -/
structure Replaced (p : Parser) (t : Store) (x : NodeId) (c : NodeCell) (d : Datum) (u : Store) (k : Kind)
    (fields : List (String × Datum)) (c' : NodeCell) (base : Mark) : Prop where
  written : settled d = .record fields
  again : settled (.record fields) = .record fields
  planted : Planted p u base u.mark x c.parent c.place fields k c'
  later : t.mark ≤ base
  off : t.GrowsOff x u
  leftovers : ∀ a, a ≠ .field .type → (∀ f ∈ slotFields k.layout, a ≠ .field f) → c'.stored? a = c.stored? a

theorem replaceNode_replaced {new : NodeId} {t₁ : Store} (hc : t.nodes[x.index]? = some c)
    (hoffers : Offers p v d) (hbuild : build d .none none p t = .ok new t₁) (hsteady : d.steady = true) :
    ∃ u k fields c' base, replaceNode x v p t = .ok () u ∧ Replaced p t x c d u k fields c' base := by
  have hkept := Kept.of_run hbuild
  obtain ⟨hagain,k,fields,hfields,hready⟩ := resettles_built d hkept hsteady
  obtain ⟨fields₀,k₀,c₁,rfl,hg⟩ := hkept.grown
  obtain rfl : k₀ = k := by
    have hkind := settled_kind hg hfields
    exact Option.some.inj (hkind.symm.trans (kindOf_of_named hready.named hready.known))
  have hgrows := (build_adds _ _ _).grows hbuild
  have hx := Store.lt_nodes_of_get hc
  have hc₁ : t₁.nodes[x.index]? = some c := (hgrows.nodes _ hx).trans hc
  let t₂ := t₁.mapNode x (fun c => { c with kind := k₀, origin := some (c₁.origin.getD new) })
  have hoff : t₁.GrowsOff x t₂ := Store.growsOff_mapNode _ _ _
  have hc₂ : t₂.nodes[x.index]? = some { c with kind := k₀, origin := some (c₁.origin.getD new) } := by
    simp only [t₂,Store.mapNode_get,if_pos,hc₁]
    rfl
  -- the new node is read after the kind of the old one was changed
  have hsnap : snapshot (.node new) t₂ = .ok (.record fields) := by
    rw [← hfields]
    refine snapshot_built _ (hkept.agree (hoff.agree hx (Mark.le_refl _))) ?_
    change t₁.nodes.size ≤ t.nodes.size + t₂.depth
    have : t₁.nodes.size ≤ t₂.nodes.size := hoff.mark.1
    unfold Store.depth
    omega
  obtain ⟨u,hfill⟩ := fill_run hc₂ hready c.parent c.place
  obtain ⟨c',hplanted,hoff',-,hleft⟩ := fill_planted hc₂ hready.named hready.known hfill
  refine ⟨u,k₀,fields,c',t₂.mark,?_,hfields,?_,hplanted,Mark.le_trans hgrows.mark hoff.mark,
    ((hgrows.off x).trans hoff).trans hoff',hleft⟩
  · refine Edit.bind_ok.mpr ⟨_,_,plainNodeFrom_run hoffers hbuild,?_⟩
    refine (Edit.node_known hg.cell).trans (Edit.bind_ok.mpr ⟨(),t₂,?_,?_⟩)
    · rw [hg.kind]
      rfl
    · exact (Edit.read_known hsnap).trans ((Edit.node_known hc₂).trans hfill)
  · rw [← hfields]
    exact hagain

/-- Replacing a node by a text or a record goes well if a node can be built from it. Otherwise it only adds cells. -/
theorem replaceNode_cases (hc : t.nodes[x.index]? = some c) (hv : v.isWritten = true)
    (hsteady : ∀ d, Offers p v d → d.steady = true) :
    (∃ d new t₁ u k fields c' base, Offers p v d ∧ build d .none none p t = .ok new t₁ ∧
      replaceNode x v p t = .ok () u ∧ Replaced p t x c d u k fields c' base) ∨
    ∃ fault u, replaceNode x v p t = .error fault u ∧ t.Grows u ∧
      ∀ d new t₁, Offers p v d → build d .none none p t ≠ .ok new t₁ := by
  cases hfrom : plainNodeFrom v .none none p t with
  | ok r t₁ =>
    obtain ⟨d,new,hoffers,hbuild,rfl⟩ := plainNodeFrom_ok hv hfrom
    obtain ⟨u,k,fields,c',base,hrun,hreplaced⟩ := replaceNode_replaced hc hoffers hbuild (hsteady d hoffers)
    exact .inl ⟨d,new,t₁,u,k,fields,c',base,hoffers,hbuild,hrun,hreplaced⟩
  | error fault u =>
    refine .inr ⟨fault,u,?_,(plainNodeFrom_adds hv).grows_error hfrom,fun d new t₁ hoffers hbuild => ?_⟩
    · unfold replaceNode
      rw [Edit.run_bind,hfrom]
    · cases hfrom.symm.trans (plainNodeFrom_run hoffers hbuild)

theorem Replaced.writes (h : Replaced p t x c d u k fields c' base) :
    u.Writes (u.nodes.size - base.nodes + 1) (.node x) (settled d) := by
  intro fuel hfuel
  obtain _ | fuel := fuel
  · omega
  have hle := h.planted.le.1
  rw [h.written,← h.again]
  refine h.planted.snapshot (show u.nodes.size ≤ base.nodes + fuel by simp only [Store.mark] at hle; omega) ?_
  exact fun {_ d} _ => ⟨snapshot_built d,fun ds _ e _ => snapshot_built e⟩

theorem call_replace (hc : t.nodes[x.index]? = some c) (v : Value) :
    call (.node x) "replace" (.ofList [v]) p t = match replaceNode x v p t with
      | .ok _ u => .ok .none u
      | .error fault u => .error fault u := by
  rw [call_node (by decide) hc rfl]
  change (silently (replaceNode x v)) p t = _
  unfold silently
  rw [Edit.run_bind]
  cases replaceNode x v p t <;> rfl

theorem Store.Reaches.shown {root : ListId} {whole e : Datum} {keys : List Key} (hx : t.Reaches root keys (.node x))
    (hroot : Written p t (.list root) whole) (hpart : whole.Part keys e) :
    snapshot (.node x) t = .ok e ∧ e.truth = true := by
  obtain ⟨e',hfollow,hwritten⟩ := hx.written hroot
  cases hpart.follow.symm.trans hfollow
  refine ⟨hwritten.snapshot,?_⟩
  cases hwritten with
  | node kept made => exact settled_truth kept

/-- Replacing is local. For every node of a new document and every text or record, either no node can be built from that
and what the document is written as stays the same, or one can be built. Then the node keeps its holder, its place and
the route to it, it is written as the node that was built, what lies beside it is written as before, all lists and views
are the same, and the text of the document changes where the text of the node was and nowhere else. -/
theorem replace_local {source : String} {s : Store} {w : ViewId} (h : newDocument source p s = .ok (.view w) t) :
    ∃ root whole, behind (.view w) t = .ok (.list root) ∧ snapshot (.view w) t = .ok whole ∧
      ∀ keys x v, t.Reaches root keys (.node x) → v.isWritten = true → (∀ d, Offers p v d → d.steady = true) →
        match call (.node x) "replace" (.ofList [v]) p t with
        | .error _ u => snapshot (.view w) u = .ok whole ∧ ∀ d new t', Offers p v d → build d .none none p t ≠ .ok new t'
        | .ok r u => r = .none ∧ ∃ d new t' c c', Offers p v d ∧ build d .none none p t = .ok new t' ∧
            t.nodes[x.index]? = some c ∧ u.nodes[x.index]? = some c' ∧ c'.parent = c.parent ∧ c'.place = c.place ∧
            u.Reaches root keys (.node x) ∧
            snapshot (.node x) u = snapshot (.node new) t' ∧ snapshot (.node new) t' = .ok (settled d) ∧
            (∀ keys' m, t.Reaches root keys' (.node m) → ¬ keys <+: keys' → ¬ keys' <+: keys →
              snapshot (.node m) u = snapshot (.node m) t) ∧
            (∀ i, i < t.lists.size → u.lists[i]? = t.lists[i]?) ∧ (∀ i, i < t.views.size → u.views[i]? = t.views[i]?) ∧
            snapshot (.view w) u = .ok (whole.graft keys (settled d)) ∧
            ∀ e text, whole.Part keys e → textOf (.view w) t = .ok text → ∃ before old after,
              whole.Surrounds keys true before after ∧ textOf (.node x) t = .ok old ∧ text = before ++ old ++ after ∧
              ∀ fresh, textOf (.node new) t' = .ok fresh → textOf (.view w) u = .ok (before ++ fresh ++ after) := by
  obtain ⟨root,whole,a,b,levels,vc,lc,hspans,hb,hview,htarget,hextra,hlist⟩ := newDocument_spans h
  have hlevels := hspans.levels_le
  have hsize : b.nodes ≤ t.nodes.size := hb.1
  have hlists := Store.lt_lists_of_get hlist
  have hviews := Store.lt_views_of_get hview
  have hwhole : snapshot (.view w) t = .ok whole :=
    (hspans.writes.view hview htarget).snapshot (by unfold Store.depth; omega)
  refine ⟨root,whole,behind_view hview htarget,hwhole,?_⟩
  intro keys x v hx hv hsteady
  have hleads := hx.toLeads
  obtain ⟨c,hc⟩ := hspans.cell hleads
  rw [call_replace hc]
  rcases replaceNode_cases hc hv hsteady with
    ⟨d,new,t',u,k,fields,c',base,hoffers,hbuild,hrun,hreplaced⟩ | ⟨fault,u,hrun,hgrows,hnone⟩
  · rw [hrun]
    have hu := hreplaced.off
    have hviewU := (hu.views _ hviews).trans hview
    have hle := hreplaced.planted.le.1
    have hlater := hreplaced.later.1
    have hlistsU := hu.mark.2.1
    have hviewsU := hu.mark.2.2
    simp only [Store.mark] at hle hlater hlistsU hviewsU
    have hnew := snapshot_of_build hbuild (.refl t')
    have hxu : snapshot (.node x) u = .ok (settled d) :=
      hreplaced.writes.snapshot (by unfold Store.depth; omega)
    have hgraft : snapshot (.view w) u = .ok (whole.graft keys (settled d)) :=
      ((hspans.graft hleads hu hreplaced.writes).view hviewU htarget).snapshot (by unfold Store.depth; omega)
    have hreaches : u.Reaches root keys (.node x) := by
      simpa using (hspans.leads hleads hu).reaches (show u.Reaches root [] (.list root) from .root)
    refine ⟨rfl,d,new,t',c,c',hoffers,hbuild,hc,hreplaced.planted.cell,hreplaced.planted.parent,hreplaced.planted.place,hreaches,
      hxu.trans hnew.symm,hnew,?_,hu.lists,hu.views,hgraft,?_⟩
    · intro keys' m hm hnot hnot'
      obtain ⟨x',y',below,e,hpart,hy,hapart⟩ := hspans.apart hleads hm.toLeads hnot hnot'
      have hbelow := hpart.levels_le
      have hyb : y'.nodes ≤ b.nodes := hy.1
      have hmark : t.nodes.size ≤ u.nodes.size := hu.mark.1
      have hm' := (hpart.growsOff hu (Mark.le_trans hy hb) hapart).writes.snapshot (by unfold Store.depth; omega)
      exact hm'.trans (hpart.writes.snapshot (by unfold Store.depth; omega)).symm
    · intro e text hpart htext
      obtain ⟨hxt,htruth⟩ := hx.shown (hspans.written hb) hpart
      obtain ⟨before,old,after,hold,rfl,hsurrounds⟩ := hpart.render_graft ((textOf_ok hwhole).mp htext)
      rw [htruth] at hsurrounds
      refine ⟨before,old,after,hsurrounds,(textOf_ok hxt).mpr hold,rfl,fun fresh hfresh => ?_⟩
      exact (textOf_ok hgraft).mpr (hsurrounds _ fresh (settled_truth (Kept.of_run hbuild)) ((textOf_ok hnew).mp hfresh))
  · rw [hrun]
    have hmark := hgrows.mark
    simp only [Mark.le_def,Store.mark] at hmark
    have hspansU : Spans p u a b levels (.list root) whole :=
      hspans.growsOff (z := ⟨t.nodes.size⟩) (hgrows.off _) hb (.inr hsize)
    refine ⟨?_,hnone⟩
    exact (hspansU.writes.view ((hgrows.views _ hviews).trans hview) htarget).snapshot (by unfold Store.depth; omega)

/-- The lines `a -= 1` and `b`. -/
def twoLines : List Datum :=
  [.record [("type",.text "assignment"),("target",nameDatum "a"),("annotation_first_formatting",.list []),
    ("annotation_second_formatting",.list []),("annotation",.record []),("first_formatting",.list [spaceDatum]),
    ("operator",.text "-"),("second_formatting",.list [spaceDatum]),
    ("value",.record [("type",.text "int"),("value",.text "1")])],
   lineEnd "",nameDatum "b"]

/-- A parser that takes every text but `c` for these lines. -/
def linesParser : Parser := fun text => .ok (.list (if text = "c" then [nameDatum "c"] else twoLines))

theorem builds_name (word : String) : Builds p (nameDatum word) := by
  refine Ready.builds (k := .name) ⟨by simp [lookupLast,Kind.word],by decide +kernel,fun slot hslot => ?_,
    fun h => by cases h⟩
  cases List.mem_singleton.mp hslot
  exact ⟨.text word,by simp [lookupLast,Field.word],admits_unchecked rfl⟩

theorem linesParser_offers {d : Datum} (h : Offers linesParser (.text "c") d) : d = nameDatum "c" := by
  cases h with
  | text read first =>
    cases read
    cases first
    rfl

/-- What the document of these lines begins with. -/
theorem twoLines_made : ∃ w t root n c, newDocument "a -= 1\nb" linesParser .empty = .ok (.view w) t ∧
    behind (.view w) t = .ok (.list root) ∧ snapshot (.view w) t = .ok (.list (twoLines.map settled)) ∧
    t.Reaches root [.index 0] (.node n) ∧ t.nodes[n.index]? = some c ∧ c.kind = .assignment ∧
    c.layout = .ok Kind.assignment.layout ∧ ∀ f ∈ [Field.target,.value], ∃ m mc, c.stored? (.field f) = some (.node m) ∧
      t.nodes[m.index]? = some mc := by
  have hrun : (newDocument "a -= 1\nb").succeeds linesParser .empty = true := by decide +kernel
  obtain ⟨v,t,h⟩ := Edit.succeeds_iff.mp hrun
  obtain ⟨w,root,height,rfl,-⟩ := newDocument_document h
  have hparse : linesParser "a -= 1\nb" = .ok (.list twoLines) := by
    unfold linesParser
    rw [if_neg (by decide)]
  obtain ⟨root,_,_,n,_,_,c,hbehind,hreach,hg⟩ := newDocument_grown h hparse
    (by decide +kernel : kindOf _ = some .assignment)
  obtain ⟨d,ds,root',hd,hds,-,-,hwhole⟩ := newDocument_written h
  cases hparse.symm.trans hd
  rcases hds with hds | ⟨-,hds | hds⟩ <;> cases hds
  refine ⟨w,t,_,n,c,h,hbehind,hwhole,hreach,hg.cell,hg.kind,hg.layout,fun f hf => ?_⟩
  have hslot : Slot.field .child f .always ∈ Kind.assignment.layout := by
    rcases List.mem_pair.mp hf with rfl | rfl <;> decide
  obtain ⟨d,v,x,y,hd,hv,-,-,hh⟩ := hg.slot (by decide) hslot
  obtain ⟨htruth,hchild⟩ : d.truth = true ∧ HoldsChild linesParser t n f d x y v := by
    rcases List.mem_pair.mp hf with rfl | rfl <;> cases Option.some.inj hd <;> exact ⟨rfl,hh⟩
  rw [HoldsChild,if_pos htruth] at hchild
  obtain ⟨m,_,-,rfl,hm⟩ := hchild
  obtain ⟨_,_,mc,-,hm⟩ := hm.grown
  exact ⟨m,mc,hv,hm.cell⟩

theorem twoLines_replace {t : Store} (hc : t.nodes[x.index]? = some c) :
    ∃ u, call (.node x) "replace" (.ofList [.text "c"]) linesParser t = .ok .none u := by
  have hoffers : Offers linesParser (.text "c") (nameDatum "c") := .text rfl rfl
  obtain ⟨new,t',hbuild⟩ := builds_name (p := linesParser) "c" .none none t
  obtain ⟨u,-,-,-,-,hrun,-⟩ := replaceNode_replaced hc hoffers hbuild (by decide)
  rw [call_replace hc,hrun]
  exact ⟨u,rfl⟩

theorem replace_local_value : ∃ w t root x u, newDocument "a -= 1\nb" linesParser .empty = .ok (.view w) t ∧
    textOf (.view w) t = .ok "a -= 1\nb" ∧ t.Reaches root [.index 0,.name "value"] (.node x) ∧
    call (.node x) "replace" (.ofList [.text "c"]) linesParser t = .ok .none u ∧ textOf (.view w) u = .ok "a -= c\nb" := by
  obtain ⟨w,t,root,n,c,h,hbehind,hwhole,hn,hc,-,hlayout,hheld⟩ := twoLines_made
  obtain ⟨x,xc,hx,hxc⟩ := hheld .value (by decide)
  have hreaches : t.Reaches root [.index 0,.name "value"] (.node x) :=
    .child hn hc hlayout (show Slot.field .child .value .always ∈ Kind.assignment.layout by decide) hx
  obtain ⟨root',whole,hbehind',hwhole',hall⟩ := replace_local h
  cases hbehind.symm.trans hbehind'
  cases hwhole.symm.trans hwhole'
  have hlocal := hall _ x (.text "c") hreaches rfl (fun d hd => by rw [linesParser_offers hd]; decide)
  obtain ⟨u,hcall⟩ := twoLines_replace hxc
  rw [hcall] at hlocal
  obtain ⟨-,d,-,-,-,-,hoffers,-,-,-,-,-,-,-,-,-,-,-,hu,-⟩ := hlocal
  cases linesParser_offers hoffers
  exact ⟨w,t,root,x,u,h,(textOf_ok hwhole).mpr (by decide +kernel),hreaches,hcall,
    (textOf_ok hu).mpr (by decide +kernel)⟩

end Replacing

end CodeTree
