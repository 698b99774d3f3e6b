import CodeTree.Proofs.LineRuns
import CodeTree.Proofs.Refitting

/-! # Lists assigned to a field

A list that is assigned to a field of a node is stored there, in a view if the kind of the node asks for one. What is shown of
it is told that it hangs at the field. The list itself and all other fields are left alone.
-/
namespace CodeTree
variable {p : Parser} {s t : Store} {n : NodeId} {f : Field} {l : ListId} {k : Kind} {v : Value} {form : Form} {xs : List Value}
  {c : NodeCell} {lc : ListCell} {shown : Shown} {word : String}

theorem Viewed.subset {form : ViewForm} {style : Option Value} (h : Viewed s form (.list l) xs style)
    (hl : s.lists[l.index]? = some lc) : xs ⊆ lc.items := by
  intro x hx
  cases hform : form.lineBased with
  | true =>
    obtain ⟨all,hall,hlines⟩ := h.lines hform
    obtain ⟨lc',hl',rfl⟩ := items_list_ok.mp hall
    cases hl.symm.trans hl'
    rcases (lineItems_statements hlines).2 x hx with hx | ⟨-,htruth⟩
    · exact hx
    · cases htruth
  | false =>
    obtain ⟨lc',hl',hxs⟩ := significant_ok (underlying_list l s) (h.others hform)
    cases hl.symm.trans hl'
    exact (withoutSeparators_mem hxs x hx).1

/-- A view is put around a list that a node holds, if its kind asks for one, and what is shown of the list is told that it
hangs at the field, if at all. -/
theorem wrapHeld_list (hc : s.nodes[n.index]? = some c) (hv : c.stored? (.field f) = some (.list l))
    (h : wrapHeld n (.field f) p s = .ok () t) : c.kind.viewForm f = none ∧ t = s ∨
      ∃ form xs style u, c.kind.viewForm f = some form ∧ Viewed s form (.list l) xs style ∧
        (u = s.addView ⟨form,.list l,xs,some (.field f),none,style,[]⟩ ∨ setHolders (.node n) (some (.field f)) xs p
          (s.addView ⟨form,.list l,xs,some (.field f),none,style,[]⟩) = .ok () u) ∧
        t = u.mapNode n (·.put (.field f) (.view ⟨s.views.size⟩)) := by
  replace h := (Edit.node_known hc).symm.trans h
  dsimp only at h
  cases hview : c.kind.viewForm f with
  | none =>
    simp only [hview] at h
    obtain ⟨-,rfl⟩ := Edit.pure_ok.mp h
    exact .inl ⟨rfl,rfl⟩
  | some form =>
    simp only [hview] at h
    obtain ⟨held,hheld,h⟩ := Edit.ask_ok.mp h
    cases (look_stored hc hv).symm.trans hheld
    change (newViewOf form (.list l) (some (.field f)) >>= _) p s = .ok () t at h
    obtain ⟨w,u,hnew,h⟩ := Edit.bind_ok.mp h
    obtain ⟨xs,style,rfl,rfl,hviewed⟩ := newViewOf_ok hnew
    refine .inr ⟨form,xs,style,?_⟩
    split at h
    · obtain ⟨vc,hvc,h⟩ := Edit.ask_ok.mp h
      rw [Read.view_ok,Store.addView_get,if_pos rfl] at hvc
      cases hvc
      obtain ⟨_,u,hset,h⟩ := Edit.bind_ok.mp h
      exact ⟨u,rfl,hviewed,.inr hset,(Edit.updateNode_ok (p := p)).mp h⟩
    · exact ⟨_,rfl,hviewed,.inl rfl,(Edit.updateNode_ok (p := p)).mp h⟩

/-- A list that is put under a field stays there as it is, and nothing but the field is changed. -/
theorem wrapHeld_covers (hc : s.nodes[n.index]? = some c) (hv : c.stored? (.field f) = some (.list l))
    (hl : s.lists[l.index]? = some lc) (hitems : ∀ x ∈ lc.items, ∃ m, x = .node m) (h : wrapHeld n (.field f) p s = .ok () t) :
    s.Frame (.only n (.field f)) t ∧ t.lists[l.index]? = some lc ∧
      ∃ d held, t.nodes[n.index]? = some d ∧ d.stored? (.field f) = some held ∧ t.Covers held l := by
  rcases wrapHeld_list hc hv h with ⟨-,rfl⟩ | ⟨form,xs,style,u,-,hviewed,hu,rfl⟩
  · exact ⟨.refl _ _,hl,c,_,hc,hv,.inl rfl⟩
  · have hnodes : ∀ x ∈ xs, ∃ m, x = .node m := fun x hx => hitems x (hviewed.subset hl hx)
    have hadd := (s.grows_addView ⟨form,.list l,xs,some (.field f),none,style,[]⟩).frame (.only n (.field f))
    have hw : (s.addView ⟨form,.list l,xs,some (.field f),none,style,[]⟩).views[s.views.size]? =
        some ⟨form,.list l,xs,some (.field f),none,style,[]⟩ := by
      rw [Store.addView_get,if_pos rfl]
    obtain ⟨hframe,hlists,hviews⟩ : (s.addView ⟨form,.list l,xs,some (.field f),none,style,[]⟩).Frame (.only n (.field f)) u ∧
        u.lists = s.lists ∧ u.views = (s.addView ⟨form,.list l,xs,some (.field f),none,style,[]⟩).views := by
      rcases hu with rfl | hset
      · exact ⟨.refl _ _,rfl,rfl⟩
      · have hmovable : ∀ x ∈ xs, x.movable = true := by
          intro x hx
          obtain ⟨m,rfl⟩ := hnodes x hx
          rfl
        obtain ⟨u',hrun,hcells⟩ := setHolders_run hnodes (.node n) (some (.field f)) p _
        cases hset.symm.trans hrun
        exact ⟨((Within.setHolders hmovable _ _).frame_ok trivial hset).1,hcells⟩
    obtain ⟨d,hd,-⟩ := (hadd.trans hframe).node hc
    exact ⟨(hadd.trans hframe).trans (Store.frame_put u (F := .only n (.field f)) ⟨rfl,rfl⟩ _),
      (congrArg (·[l.index]?) hlists).trans hl,_,_,Store.mapNode_self hd,NodeCell.stored_put_self _ _ _,
      .inr ⟨_,_,rfl,(congrArg (·[s.views.size]?) hviews).trans hw,rfl,rfl⟩⟩

theorem assign_list_run (hn : s.Finished n k) (hslot : .field form f shown ∈ k.layout) (hform : form.isList = true)
    (hword : k.assigned (.ofWord word) = .field f) (h : assign (.node n) word v p s = .ok () t) :
    ∃ r u d, listFor (.node n) v (.node n) (some (.field f)) p s = .ok r u ∧
      (u.mapNode n (·.put (.field f) r)).nodes[n.index]? = some d ∧ d.stored? (.field f) = some r ∧
      wrapHeld n (.field f) p (u.mapNode n (·.put (.field f) r)) = .ok () t := by
  have hfiled := layout_filed k _ hslot
  simp only [Slot.filed,hform,Bool.and_eq_true,Bool.true_and,Bool.not_eq_true',Bool.or_eq_false_iff] at hfiled
  rw [assign_run hn hword,prepareStore_unchecked hfiled.2.1.1,pure_bind] at h
  obtain ⟨_,_,hconverted,hwrap⟩ := Edit.bind_ok.mp h
  rw [assignConverted_run hn hslot,form.convert_list hform] at hconverted
  obtain ⟨r,u,hlist,hput⟩ := Edit.bind_ok.mp hconverted
  cases hput
  obtain ⟨d,hd,-⟩ := Edit.ask_ok.mp hwrap
  have hd : (u.mapNode n (·.put (.field f) r)).nodes[n.index]? = some d := Read.node_ok.mp hd
  refine ⟨r,u,d,hlist,hd,?_,hwrap⟩
  rw [Store.mapNode_get,if_pos rfl,Option.map_eq_some_iff] at hd
  obtain ⟨d',-,rfl⟩ := hd
  exact NodeCell.stored_put_self _ _ _

end CodeTree
