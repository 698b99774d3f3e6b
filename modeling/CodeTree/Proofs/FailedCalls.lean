import CodeTree.Proofs.CommaFrames
import CodeTree.Proofs.ScanContracts
import CodeTree.Proofs.Rebuilding

/-! # Calls that fail

What can fail in a call on a list of items between commas or dots comes before anything is changed: values are converted and
positions looked up first, and the passes that follow come to their end. The exception is a list in indented style, where a pass
reads the indentation of the node that holds the list.
-/
namespace CodeTree
variable {p : Parser} {s t u : Store} {w : ViewId} {l : ListId} {n m : NodeId} {f : Field} {k : Kind} {form : ViewForm}
  {D L xs : List Value} {v : Value} {F : Freedom} {c : NodeCell} {d : Datum} {fault : Fault}

/-! ## What is expected can be built -/

theorem newSeparator_run (h : Builds p d) (c : ViewCell) (s : Store) :
    ∃ v t, newSeparator c d p s = .ok v t ∧ s.Frame .nothing t ∧ t.Typed v := by
  obtain ⟨n,t,hn⟩ := h c.target c.place s
  obtain ⟨k,hgoes,-⟩ := build_honest hn
  exact ⟨_,t,Edit.bind_ok.mpr ⟨n,t,hn,rfl⟩,((build_adds _ _ _).grows hn).frame _,k,_,hgoes⟩

theorem followedBy_run {separator : Edit Value} (h : ∀ s, ∃ v t, separator p s = .ok v t) (xs : List Value) (s : Store) :
    ∃ es t, followedBy separator xs p s = .ok es t := by
  induction xs generalizing s with
  | nil => exact ⟨[],s,rfl⟩
  | cons x xs ih =>
    obtain ⟨e,t,he⟩ := h s
    obtain ⟨es,u,hes⟩ := ih t
    exact ⟨_,u,Edit.bind_ok.mpr ⟨e,t,he,Edit.bind_ok.mpr ⟨es,u,hes,rfl⟩⟩⟩

theorem dottedItems_run {separator : Edit Value} (h : ∀ s, ∃ v t, separator p s = .ok v t ∧ s.Frame .nothing t ∧ t.Typed v)
    (hxs : ∀ x ∈ xs, s.Typed x) (done : List Value) : ∃ es t, dottedItems separator done xs p s = .ok es t ∧ s.Frame .nothing t ∧
      ∀ e ∈ es, e ∈ done ∨ e ∈ xs ∨ t.Typed e := by
  induction xs generalizing s done with
  | nil => exact ⟨done,s,rfl,.refl _ s,fun _ he => .inl he⟩
  | cons x xs ih =>
    obtain ⟨k,type,hgoes⟩ := hxs x List.mem_cons_self
    obtain ⟨e,t,he,hF,htyped⟩ := h s
    have hgo : ∀ before : List Value, before ⊆ done → ∃ es u, (do
        let e ← separator
        dottedItems separator (before ++ [x,e]) xs) p s = .ok es u ∧ s.Frame .nothing u ∧
          ∀ e ∈ es, e ∈ done ∨ e ∈ x :: xs ∨ u.Typed e := by
      intro before hbefore
      obtain ⟨es,u,hes,hF',hmem⟩ := ih (fun x hx => (hxs x (List.mem_cons_of_mem _ hx)).frame hF (fun _ h => h)) (before ++ [x,e])
      refine ⟨es,u,Edit.bind_ok.mpr ⟨e,t,he,hes⟩,hF.trans hF',fun y hy => ?_⟩
      rcases hmem y hy with hy | hy | hy
      · rcases List.mem_append.mp hy with hy | hy
        · exact .inl (hbefore hy)
        · simp only [List.mem_cons,List.not_mem_nil,or_false] at hy
          rcases hy with rfl | rfl
          · exact .inr (.inl List.mem_cons_self)
          · exact .inr (.inr (htyped.frame hF' (fun _ h => h)))
      · exact .inr (.inl (List.mem_cons_of_mem _ hy))
      · exact .inr (.inr hy)
    have hdrop : ∀ joined : Bool, (if joined then done.dropLast else done) ⊆ done := by
      intro joined
      cases joined with
      | true => exact (List.dropLast_sublist done).subset
      | false => exact List.Subset.refl done
    unfold dottedItems
    split
    · exact hgo done (List.Subset.refl done)
    · rw [Edit.read_known hgoes.typeOf]
      split <;> exact hgo _ (hdrop _)

theorem expectedItems_flat_run (hheld : Held s w l n f k .comma) (hshown : InStyle s w true D) (p : Parser) :
    ∃ es t, expectedItems w p s = .ok es t := by
  obtain ⟨c,hc,hform,-⟩ := hheld.view
  obtain ⟨c',hc',-,hstyle⟩ := hshown
  cases hc.symm.trans hc'
  have hseparator : ∀ s, ∃ v t, newSeparator c (commaDatum spaceDatum) p s = .ok v t := fun s => by
    obtain ⟨v,t,hv,-⟩ := newSeparator_run (builds_comma builds_space) c s
    exact ⟨v,t,hv⟩
  obtain ⟨es,t,hes⟩ := followedBy_run hseparator c.items s
  refine ⟨es.dropLast,t,Edit.ask_ok.mpr ⟨c,Read.view_ok.mpr hc,?_⟩⟩
  dsimp only
  rw [hform]
  unfold expectedCommas
  refine Edit.ask_ok.mpr ⟨false,hasStyle_ok hstyle _,?_⟩
  simp only [Bool.false_eq_true,if_false,pure_bind]
  exact Edit.bind_ok.mpr ⟨es,t,hes,Edit.ask_ok.mpr ⟨true,hasStyle_ok hstyle _,rfl⟩⟩

theorem expectedItems_dotted_run (hheld : Held s w l n f k .dotted) (hshown : s.ShowsItems w D) (hD : ∀ x ∈ D, s.Typed x)
    (p : Parser) : ∃ es t, expectedItems w p s = .ok es t ∧ s.Frame .nothing t ∧ ∀ e ∈ es, e ∈ D ∨ t.Typed e := by
  obtain ⟨c,hc,hform,-⟩ := hheld.view
  obtain ⟨c',hc',rfl⟩ := hshown
  cases hc.symm.trans hc'
  obtain ⟨es,t,hes,hF,hmem⟩ := dottedItems_run (newSeparator_run builds_dot c) hD []
  refine ⟨es.dropLast,t,Edit.ask_ok.mpr ⟨c,Read.view_ok.mpr hc,?_⟩,hF,fun e he => ?_⟩
  · dsimp only
    rw [hform]
    exact Edit.bind_ok.mpr ⟨es,t,hes,rfl⟩
  · exact (hmem e ((List.dropLast_sublist es).subset he)).resolve_left (by simp)

/-! ## Commas can be aligned -/

/-- A node with a list of nodes for what follows it. -/
def Store.LaidOut (s : Store) (v : Value) : Prop :=
  ∃ n c l, v = .node n ∧ s.nodes[n.index]? = some c ∧ c.stored? (.field .secondFormatting) = some (.list l) ∧ s.NodeList l

theorem Store.LaidOut.frame (h : s.LaidOut v) (hF : s.Frame F t) (hfree : ∀ n, v = .node n → ¬ F.attr n (.field .secondFormatting))
    (hlists : ∀ l, s.NodeList l → t.NodeList l) : t.LaidOut v := by
  obtain ⟨n,c,l,rfl,hc,hv,hlist⟩ := h
  obtain ⟨d,hd,hkeeps⟩ := hF.node hc
  exact ⟨n,d,l,rfl,hd,(hkeeps.stored _ (hfree n rfl)).trans hv,hlists l hlist⟩

theorem sameItems_run {ys : List Value} (hxs : ∀ x ∈ xs, ∃ m, x = .node m) (hys : ∀ y ∈ ys, ∃ m, y = .node m) (fuel : Nat) :
    ∃ b, sameItemsWith (equalAt (fuel + 1)) xs ys s = .ok b := by
  induction xs generalizing ys with
  | nil => cases ys <;> exact ⟨_,rfl⟩
  | cons x xs ih =>
    cases ys with
    | nil => exact ⟨false,rfl⟩
    | cons y ys =>
      obtain ⟨m,rfl⟩ := hxs x List.mem_cons_self
      obtain ⟨m',rfl⟩ := hys y List.mem_cons_self
      have hsame : equalAt (fuel + 1) (.node m) (.node m') s = .ok (m == m') := rfl
      unfold sameItemsWith
      rw [Read.bind_known hsame]
      cases m == m' with
      | false => exact ⟨false,rfl⟩
      | true => exact ih (List.forall_mem_cons.mp hxs).2 (List.forall_mem_cons.mp hys).2

theorem sequence_nodes (h : s.HasItems l .nodes xs) : sequence? (.list l) s = .ok (some (false,xs)) := by
  obtain ⟨c,hc,hflavour,rfl⟩ := h
  simp only [sequence?,Read.list_known hc,hflavour]
  rfl

/-- Whether two lists of nodes have the same items can always be told. -/
theorem equal_nodeLists_run {l' : ListId} (h : s.NodeList l) (h' : s.NodeList l') : ∃ b, equal (.list l) (.list l') s = .ok b := by
  obtain ⟨xs,hitems,hxs⟩ := h
  obtain ⟨ys,hitems',hys⟩ := h'
  obtain ⟨c,hc,-⟩ := id hitems
  obtain ⟨fuel,hfuel⟩ := Store.depth_two hc
  unfold equal
  rw [Read.bind_known (a := s.depth) rfl,hfuel]
  simp only [equalAt,Value.toDatum?]
  split
  · exact ⟨true,rfl⟩
  · rw [Read.bind_known (sequence_nodes hitems),Read.bind_known (sequence_nodes hitems')]
    exact sameItems_run hxs hys fuel

/-- A list of one space can be copied. -/
theorem copyList_space_run {e : NodeCell} (hl : s.HasItems l .nodes [.node m]) (he : s.nodes[m.index]? = some e) (hspace : e.IsSpace)
    (p : Parser) : ∃ l' t q, copyList (.list l) p s = .ok l' t ∧ t.HasItems l' .nodes [.node q] := by
  obtain ⟨c,hc,hflavour,hitems⟩ := hl
  obtain ⟨fuel,hfuel⟩ := Store.depth_two hc
  have hmapped : [Value.node m].mapM (snapshotAt (fuel + 1)) s = .ok [spaceDatum] := by
    rw [List.mapM_cons,Read.bind_known (hspace.snapshot he fuel)]
    rfl
  have hsnapshot : snapshot (.list l) s = .ok (.list [spaceDatum]) := by
    unfold snapshot
    rw [Read.bind_known (a := s.depth) rfl,hfuel]
    change (Read.list l >>= _) s = _
    rw [Read.list_known hc,if_pos (by rw [hflavour]; rfl),hitems,Read.bind_known hmapped]
    rfl
  have hbuilds : ∀ d ∈ [spaceDatum], Builds p d := by simpa using builds_space
  obtain ⟨vs,t,hvs⟩ := buildEach_run hbuilds .none none s
  obtain ⟨q,_,rfl,-⟩ := buildItems_space hvs
  have hget : (t.addList ⟨.nodes,[.node q],.none,none,[]⟩).lists[t.lists.size]? = some ⟨.nodes,[.node q],.none,none,[]⟩ := by
    rw [Store.addList_get,if_pos rfl]
  exact ⟨_,_,q,Edit.ask_ok.mpr ⟨_,hsnapshot,Edit.bind_ok.mpr ⟨_,t,hvs,rfl⟩⟩,_,hget,rfl,rfl⟩

/-- What follows a comma cannot be copied. -/
def Store.Uncopied (s : Store) (p : Parser) (e : Value) (fault : Fault) (t : Store) : Prop :=
  s.Comma e ∧ ∃ n c l, e = .node n ∧ s.nodes[n.index]? = some c ∧ c.stored? (.field .secondFormatting) = some (.list l) ∧
    copyList (.list l) p s = .error fault t

theorem Store.Spaced.copied {e : Value} (h : s.Spaced e) (hlaid : s.LaidOut e) : ¬ s.Uncopied p e fault t := by
  rintro ⟨-,n,c,l,rfl,hc,hstored,hfails⟩
  obtain ⟨_,_,lc,q,space,heq,hc',-,hstored',hlc,hitems,hspace,hq⟩ := h.choose_spec
  cases heq
  cases hc.symm.trans hc'
  cases hstored.symm.trans hstored'
  obtain ⟨_,_,_,heq,hc'',hstored'',_,⟨lc',hlc',hflavour,-⟩,-⟩ := hlaid
  cases heq
  cases hc.symm.trans hc''
  cases hstored.symm.trans hstored''
  cases hlc.symm.trans hlc'
  obtain ⟨_,_,_,hcopy,-⟩ := copyList_space_run ⟨lc,hlc,hflavour,hitems⟩ hspace hq p
  cases hcopy.symm.trans hfails

/-- A comma is aligned with another one, unless what follows that one cannot be copied. -/
theorem alignSeparator_run {x e : Value} (hx : s.Comma x) (hlaid : s.LaidOut x) (he : s.Comma e) (hlaid' : s.LaidOut e)
    (p : Parser) : (∃ n t, x = .node n ∧ alignSeparator .comma x e p s = .ok () t ∧
        s.Frame (.only n (.field .secondFormatting)) t ∧ t.LaidOut x) ∨
      ∃ fault t, alignSeparator .comma x e p s = .error fault t ∧ s.Uncopied p e fault t := by
  obtain ⟨n,c,l,rfl,hc,hstored,hlist⟩ := id hlaid
  obtain ⟨m,d,l',rfl,hd,hstored',hlist'⟩ := hlaid'
  have hattr : attr (.node m) "second_formatting" s = .ok (.list l') := attr_stored hd hstored'
  have hattr' : attr (.node n) "second_formatting" s = .ok (.list l) := attr_stored hc hstored
  obtain ⟨same,hsame⟩ := equal_nodeLists_run hlist hlist'
  have hframe : ∀ {t}, alignSeparator .comma (.node n) (.node m) p s = .ok () t → s.Frame (.only n (.field .secondFormatting)) t :=
    fun h => (Edit.Meets.frame_ok (alignSeparator_gives (F := .only n (.field .secondFormatting)) (K := fun _ => True)
      (fun _ _ h _ => h) (fun q hq => ⟨(Value.node.inj hq).symm,rfl⟩) (fun _ h => h) (.node m)) trivial h).1
  have hrun : alignSeparator .comma (.node n) (.node m) p s = (do
      if !same then
        let l ← copyList (.list l')
        assign (.node n) "second_formatting" (.list l) : Edit Unit) p s := by
    simp only [alignSeparator]
    rw [Edit.read_known hattr,Edit.read_known hattr',Edit.read_known hsame]
  cases same with
  | true => exact .inl ⟨n,s,rfl,hrun,hframe hrun,hlaid⟩
  | false =>
    obtain ⟨_,_,heq,hc',hcomma⟩ := hx
    cases heq
    cases hc.symm.trans hc'
    cases hcopy : copyList (.list l') p s with
    | error fault u => exact .inr ⟨fault,u,hrun.trans (Edit.bind_failed hcopy),he,m,d,l',rfl,hd,hstored',hcopy⟩
    | ok l₁ u =>
      obtain ⟨xs,hcopied,hnodes⟩ := copyList_items hcopy
      have hc₁ := ((copyList_grows.grows hcopy).nodes _ (Store.lt_nodes_of_get hc)).trans hc
      obtain ⟨u',hF,hassign⟩ := assign_comma hc₁ hcomma hcopied hnodes p
      have hrun := hrun.trans ((Edit.bind_known hcopy).trans hassign)
      obtain ⟨c₂,hc₂,-⟩ := hF.node hc₁
      have hlist₁ : u'.NodeList l₁ := ⟨xs,hcopied.frame hF id,hnodes⟩
      refine .inl ⟨n,_,rfl,hrun,hframe hrun,n,c₂.put (.field .secondFormatting) (.list l₁),l₁,rfl,?_,
        NodeCell.stored_put_self ..,hlist₁⟩
      exact Store.mapNode_self hc₂

/-- Commas are aligned with others one after the other. Where one of these cannot be copied it is none that has a space after it. -/
theorem alignSeparators_run {pairs : List (Value × Value)}
    (hpairs : ∀ q ∈ pairs, s.Comma q.1 ∧ s.LaidOut q.1 ∧ s.Comma q.2 ∧ s.LaidOut q.2)
    (hspaced : ∀ q ∈ pairs, q.2 ∈ xs ∨ s.Spaced q.2 ∧ ∀ q' ∈ pairs, q.2 ≠ q'.1) (p : Parser) :
    (∃ t, alignSeparators .comma pairs p s = .ok () t ∧ ∀ v, s.LaidOut v → t.LaidOut v) ∨
      ∃ fault t, alignSeparators .comma pairs p s = .error fault t ∧ ∃ e ∈ xs, ∃ u : Store, u.Uncopied p e fault t := by
  induction pairs generalizing s with
  | nil => exact .inl ⟨s,rfl,fun _ h => h⟩
  | cons q pairs ih =>
    obtain ⟨hx,hlaid,he,hlaid'⟩ := hpairs q List.mem_cons_self
    rcases alignSeparator_run hx hlaid he hlaid' p with ⟨n,t,hn,ht,hF,hself⟩ | ⟨fault,t,ht,hfails⟩
    · have hothers : ∀ v, s.LaidOut v → t.LaidOut v := by
        intro v hv
        by_cases hvn : v = q.1
        · exact hvn ▸ hself
        · refine hv.frame hF (fun m hm hfree => hvn ?_) (fun l hl => hl.frame hF id)
          rw [hm,hn,hfree.1]
      have hcomma : ∀ v, s.Comma v → t.Comma v := fun v hv => hv.frame hF (fun m hm => by cases hm.2)
      have hrest := ih (s := t) (fun q' hq' => by
        obtain ⟨h₁,h₂,h₃,h₄⟩ := hpairs q' (List.mem_cons_of_mem _ hq')
        exact ⟨hcomma _ h₁,hothers _ h₂,hcomma _ h₃,hothers _ h₄⟩) (fun q' hq' => by
        refine (hspaced q' (List.mem_cons_of_mem _ hq')).imp_right (fun ⟨hs,hne⟩ => ?_)
        refine ⟨hs.frame hF (fun m a hm => ⟨hm.2,?_⟩) (fun _ h => h),fun q'' hq'' => hne q'' (List.mem_cons_of_mem _ hq'')⟩
        rw [hm.1,← hn]
        exact hne q List.mem_cons_self)
      rcases hrest with ⟨u,hu,hlater⟩ | ⟨fault,u,hu,hfails⟩
      · exact .inl ⟨u,Edit.bind_ok.mpr ⟨(),t,ht,hu⟩,fun v hv => hlater v (hothers v hv)⟩
      · exact .inr ⟨fault,u,(Edit.bind_known ht).trans hu,hfails⟩
    · rcases hspaced q List.mem_cons_self with hmem | ⟨hs,-⟩
      · exact .inr ⟨fault,t,Edit.bind_failed ht,q.2,hmem,s,hfails⟩
      · exact absurd hfails (hs.copied hlaid')

theorem alignSeparators_dotted_run (pairs : List (Value × Value)) (p : Parser) (s : Store) :
    alignSeparators .dotted pairs p s = .ok () s := by
  induction pairs with
  | nil => rfl
  | cons q pairs ih => exact Edit.bind_ok.mpr ⟨(),s,rfl,ih⟩

/-! ## Passes come to their end -/

/-- What the list behind a view of items between commas or dots consists of: items, and nodes between them that can be aligned. -/
def Store.PartOf (form : ViewForm) (s : Store) (v : Value) : Prop :=
  s.Item form.separator v ∨ s.Typed v ∧ (form = .comma → s.Comma v ∧ s.LaidOut v)

theorem Store.PartOf.typed (h : s.PartOf form v) : s.Typed v := h.elim (fun h => h.typed) (fun h => h.1)

theorem Store.PartOf.frame (h : s.PartOf form v) (hF : s.Frame F t) (ht : F.KeepsTypes)
    (hlaid : s.Comma v → s.LaidOut v → t.LaidOut v) : t.PartOf form v :=
  h.imp (fun h => h.frame hF ht) (fun h => ⟨h.1.frame hF ht,fun hf => ⟨(h.2 hf).1.frame hF ht,hlaid (h.2 hf).1 (h.2 hf).2⟩⟩)

theorem Store.PartOf.comma (h : s.PartOf .comma v) (hkey : sepKey "comma" s v = none) : s.Comma v ∧ s.LaidOut v := by
  rcases h with hitem | ⟨-,h⟩
  · cases hkey.symm.trans (show sepKey "comma" s v = some v from hitem.sepKey)
  · exact h rfl

/-- A view of items and the list behind it. New items may be separators, too. -/
structure Listed (s : Store) (w : ViewId) (l : ListId) (n : NodeId) (f : Field) (k : Kind) (form : ViewForm)
    (new D L : List Value) : Prop where
  held : Held s w l n f k form
  shown : s.ShowsItems w D
  entries : ∀ x ∈ D, s.Item form.separator x ∨ x ∈ new ∧ s.PartOf form x
  behind : s.HasItems l .nodes L
  parts : ∀ x ∈ L, s.PartOf form x

theorem Listed.all {new : List Value} (h : Listed s w l n f k form new D L) : ∀ x ∈ D, s.PartOf form x :=
  fun x hx => (h.entries x hx).elim .inl (fun h => h.2)

/-- A view that any pass brings in step with the list behind it. -/
structure Passable (s : Store) (w : ViewId) (l : ListId) (n : NodeId) (f : Field) (k : Kind) (form : ViewForm)
    (new D L : List Value) : Prop extends Listed s w l n f k form new D L where
  style : form = .comma → InStyle s w true D

theorem Store.NodeList.holding {l' : ListId} (h : s.NodeList l') (hxs : ∀ x ∈ xs, ∃ m, x = .node m) :
    (s.holding l xs).NodeList l' := by
  by_cases heq : l' = l
  · subst heq
    obtain ⟨ys,hys,-⟩ := h
    exact ⟨xs,Store.holding_items hys xs,hxs⟩
  · exact stable_nodeList (F := ⟨fun _ _ => False,fun l' => l' = l,fun _ => False⟩) heq s _ h (Store.frame_holding rfl xs)

section Pass
variable {new : List Value} (h : Passable s w l n f k form new D L) (hform : form.mends = true)
include h hform

theorem Passable.expected (p : Parser) : ∃ E u, expectedItems w p s = .ok E u ∧ s.Frame .nothing u ∧
    ∀ e ∈ E, e ∈ D ∨ u.Typed e ∧ (form = .comma → (u.SpacedComma l e ∧ u.LaidOut e) ∧ ∀ m, e = .node m → s.nodes.size ≤ m.index) := by
  cases form with
  | comma =>
    have hK : Stable .nothing (fun u => (Held u w l n f k .comma ∧ InStyle u w true D) ∧ s.nodes.size ≤ u.nodes.size) :=
      (stable_held.and (stable_inStyle id true D)).and (fun _ _ hs hF => Nat.le_trans hs hF.mark.1)
    have hP : ∀ v, Stable .nothing (fun u => (u.SpacedComma l v ∧ u.LaidOut v) ∧ ∀ m, v = .node m → s.nodes.size ≤ m.index) :=
      fun v s t hs hF => ⟨⟨hs.1.1.frame hF (fun _ _ h => h) (fun _ _ h => h),
        hs.1.2.frame hF (fun _ _ h => h) (fun l hl => hl.frame hF id)⟩,hs.2⟩
    obtain ⟨E,u,hE⟩ := expectedItems_flat_run h.held (h.style rfl) p
    have hgives := expectedItems_flat hK (fun _ hs => hs.1.1) (fun _ hs => hs.1.2) hP (fun parent place p s m t hs hm => by
      obtain ⟨fields,k,c,hd,hg⟩ := (Kept.of_run hm).grown
      cases hd
      obtain rfl := hg.kind_eq (by rfl) ofWord_comma
      obtain ⟨-,l',hl'⟩ := hg.comma
      refine ⟨⟨spacedComma_of_build hs.1.1 hm,m,c,l',rfl,hg.cell,hl'⟩,fun m' hm' => ?_⟩
      cases hm'
      exact Nat.le_trans hs.2 (Nat.le_of_eq hg.first.symm))
    obtain ⟨hF,-,all,hall,rfl⟩ := Edit.Meets.frame_ok hgives ⟨⟨h.held,h.style rfl⟩,Nat.le_refl _⟩ hE
    refine ⟨_,u,hE,hF,fun e he => (hall.mem e ((List.dropLast_sublist all).subset he)).imp_right (fun he => ?_)⟩
    exact ⟨⟨_,_,he.1.1.1.goes⟩,fun _ => he⟩
  | dotted =>
    obtain ⟨E,u,hE,hF,hmem⟩ := expectedItems_dotted_run h.held h.shown (fun x hx => (h.all x hx).typed) p
    exact ⟨E,u,hE,hF,fun e he => (hmem e he).imp_right (fun he => ⟨he,by simp⟩)⟩
  | _ => cases hform

/-- A pass comes to its end, unless what follows a comma among the new items cannot be copied. -/
theorem Passable.pass (p : Parser) (fuel : Nat) (dir : Direction) :
    (∃ t L', bringInStep (fuel + 1) dir w p s = .ok () t ∧ Passable t w l n f k form new D L') ∨
      ∃ fault t, bringInStep (fuel + 1) dir w p s = .error fault t ∧ form = .comma ∧
        ∃ e ∈ new, ∃ u : Store, u.Uncopied p e fault t := by
  obtain ⟨E,u,hE,hF,hexpected⟩ := h.expected hform p
  have hpart : ∀ x, s.PartOf form x → u.PartOf form x := fun x hx => hx.frame hF (fun _ h => h)
    (fun _ hlaid => hlaid.frame hF (fun _ _ h => h) (fun l hl => hl.frame hF id))
  have hparts : ∀ x ∈ L, u.PartOf form x := fun x hx => hpart x (h.parts x hx)
  have hD : ∀ x ∈ D, u.PartOf form x := fun x hx => hpart x (h.all x hx)
  have hEs : ∀ e ∈ E, u.PartOf form e := fun e he => (hexpected e he).elim (hD e)
    (fun he => .inr ⟨he.1,fun hf => ⟨(he.2 hf).1.1.1,(he.2 hf).1.2⟩⟩)
  obtain ⟨c,hc,rfl,htarget,-⟩ := (stable_held _ _ h.held hF).view
  obtain ⟨c',hc',rfl⟩ := h.shown.frame hF id
  cases hc.symm.trans hc'
  obtain ⟨-,-,plan,-,-,-,-,-,hmem,hpairs,hrun⟩ := bringInStep_planned (fun x hx => (hparts x hx).typed) (fun e he => (hEs e he).typed)
    (fun x hx => (hD x hx).typed) dir
  have hresult : ∀ y ∈ plan.result, u.PartOf c.form y := fun y hy => (hmem y hy).elim (hparts y) (hEs y)
  -- The layout of the separators that are kept is changed in the list as it is then.
  have hholding : u.Frame (.behind l) (u.holding l plan.result) := Store.frame_holding rfl _
  have hlist : u.Frame ⟨fun _ _ => False,fun l' => l' = l,fun _ => False⟩ (u.holding l plan.result) := Store.frame_holding rfl _
  have hlaid : ∀ v, u.LaidOut v → (u.holding l plan.result).LaidOut v := fun v hv => hv.frame hlist (fun _ _ h => h)
    (fun l' hl' => hl'.holding (fun y hy => (hresult y hy).typed.node))
  have hends : (∃ t, alignSeparators c.form plan.pairs p (u.holding l plan.result) = .ok () t ∧
      ∀ v, (u.holding l plan.result).LaidOut v → t.LaidOut v) ∨
      ∃ fault t, alignSeparators c.form plan.pairs p (u.holding l plan.result) = .error fault t ∧ c.form = .comma ∧
        ∃ e ∈ new, ∃ u : Store, u.Uncopied p e fault t := by
    cases hf : c.form with
    | comma =>
      rw [hf] at hparts hEs hpairs
      have hcommas : ∀ q ∈ plan.pairs, (u.Comma q.1 ∧ u.LaidOut q.1) ∧ u.Comma q.2 ∧ u.LaidOut q.2 := fun q hq =>
        ⟨(hparts _ (hpairs q hq).1).comma (hpairs q hq).2.2.1,(hEs _ (hpairs q hq).2.1).comma (hpairs q hq).2.2.2⟩
      have hcomma : ∀ {v}, u.Comma v → (u.holding l plan.result).Comma v := fun hv => hv.frame hlist (fun _ h => h)
      refine (alignSeparators_run (fun q hq => ?_) (fun q hq => ?_) p).imp_right
        (fun ⟨fault,t,ht,hfails⟩ => ⟨fault,t,ht,rfl,hfails⟩)
      · obtain ⟨⟨h₁,h₂⟩,h₃,h₄⟩ := hcommas q hq
        exact ⟨hcomma h₁,hlaid _ h₂,hcomma h₃,hlaid _ h₄⟩
      · obtain ⟨-,he,-⟩ := hcommas q hq
        rcases hexpected _ (hpairs q hq).2.1 with hmem | ⟨-,hspaced⟩
        · refine .inl ((h.entries _ hmem).elim (fun hitem => ?_) (fun h => h.1))
          rw [hf] at hitem
          exact absurd (hitem.frame hF (fun _ h => h)) he.not_item
        · obtain ⟨⟨hspaced,-⟩,hfresh⟩ := hspaced hf
          obtain ⟨-,l',-,hspaced'⟩ := hspaced.frame hlist (fun _ _ h => h) (fun _ h => h)
          refine .inr ⟨⟨l',hspaced'⟩,fun q' hq' heq => ?_⟩
          -- What stood in the list before the pass is none of the new separators.
          obtain ⟨_,_,m,d,hm,hd,-⟩ := (h.parts _ (hpairs q' hq').1).typed
          have hlt := Store.lt_nodes_of_get hd
          have hge := hfresh m (heq.trans hm)
          omega
    | dotted => exact .inl ⟨_,alignSeparators_dotted_run _ _ _,fun _ h => h⟩
    | _ =>
      rw [hf] at hform
      cases hform
  have hstep : bringInStep (fuel + 1) dir w p s = alignSeparators c.form plan.pairs p (u.holding l plan.result) :=
    hrun hE hc htarget (h.behind.frame hF id)
  rcases hends with ⟨t,ht,hlaid'⟩ | ⟨fault,t,ht,hfails⟩
  · have hF' := (Edit.Meets.frame_ok (alignSeparators_mends hform _) trivial ht).1
    have hall : s.Frame (.behind l) t := (hF.mono (Freedom.nothing_le _)).trans (hholding.trans (hF'.mono (Freedom.attributes_le_behind l)))
    have hpart' : ∀ y, u.PartOf c.form y → t.PartOf c.form y := fun y hy =>
      (hy.frame hholding (fun _ h => h rfl) (fun _ => hlaid y)).frame hF' (fun _ h => h rfl) (fun _ => hlaid' y)
    refine .inl ⟨t,plan.result,hstep.trans ht,⟨stable_held _ _ h.held hall,h.shown.frame hall id,fun x hx => ?_,?_,?_⟩,
      fun hf => (h.style hf).frame hall id⟩
    · exact (h.entries x hx).imp (fun hx => hx.frame hall (fun _ h => h rfl)) (fun hx => ⟨hx.1,hpart' x (hpart x hx.2)⟩)
    · exact (Store.holding_items (h.behind.frame hF id) _).frame hF' id
    · exact fun y hy => hpart' y (hresult y hy)
  · exact .inr ⟨fault,t,hstep.trans ht,hfails⟩

omit h in
theorem Passable.passes {dirs : List Direction} {end_ : EStateM.Result Fault Store Unit} (hpasses : PassesTo p w dirs s end_)
    (h : Passable s w l n f k form new D L) (hend : end_ = .error fault u) :
    form = .comma ∧ ∃ e ∈ new, ∃ s : Store, s.Uncopied p e fault u := by
  induction hpasses generalizing L with
  | nil s => cases hend
  | @cons s t fuel dir _ _ hrun _ ih =>
    rcases h.pass hform p fuel dir with ⟨t',L',hrun',h'⟩ | ⟨fault',t',hrun',-⟩
    · cases hrun.symm.trans hrun'
      exact ih h' hend
    · cases hrun.symm.trans hrun'
  | @stop s t fuel dir _ _ hrun =>
    cases hend
    rcases h.pass hform p fuel dir with ⟨t',L',hrun',-⟩ | ⟨fault',t',hrun',hfails⟩
    · cases hrun.symm.trans hrun'
    · cases hrun.symm.trans hrun'
      exact hfails

end Pass

/-! ## Calls -/

/-- To convert values, attributes are changed of no other node than the one that holds the list. -/
theorem itemsFromEach_own {vs : List Value} (hheld : Held s w l n f k form) (hform : form.mends = true)
    (hvs : form = .comma → ∀ v ∈ vs, s.Sound "comma" v) :
    (itemsFromEach w vs).Meets (fun s' => s' = s) (Store.Frame (.own n)) (fun xs t => ∀ x ∈ xs, t.Item form.separator x) := by
  cases form with
  | comma => exact Edit.Meets.weaken (itemsFromEach_sound hheld (hvs rfl)) (fun _ h => h) (fun _ _ h => h.2)
  | dotted =>
    have hgives : Gives (.own n) (fun s => Held s w l n f k .dotted) (fun xs t => ∀ x ∈ xs, t.Item "dot" x) (itemsFromEach w vs) :=
      itemsFromEach_each (fun _ _ _ hs hF => hs.frame hF (fun _ h => h.2 rfl))
        (fun v _ => itemFrom_dots stable_held (fun _ h => h) hheld.through)
    exact Edit.Meets.weaken hgives (fun s' hs' => hs' ▸ hheld) (fun _ _ h => h.2)
  | _ => cases hform

theorem Grown.partOf {a b : Mark} {parent : Value} {place : Option Attr} {fields : List (String × Datum)}
    (hg : Grown p t a b n parent place fields k c) : t.PartOf form (.node n) := by
  have hgoes : t.Goes (.node n) k (.text k.word) := ⟨n,c,rfl,hg.cell,hg.kind,hg.type⟩
  by_cases hk : k = .comma
  · subst hk
    obtain ⟨hcomma,l,hl⟩ := hg.comma
    exact .inr ⟨⟨_,_,hgoes⟩,fun _ => ⟨⟨n,c,rfl,hg.cell,hcomma⟩,n,c,l,rfl,hg.cell,hl⟩⟩
  · by_cases hform : form = .comma
    · subst hform
      exact .inl ⟨k,_,hgoes,fun h => hk (Kind.word_comma (Value.text.inj h))⟩
    · exact .inr ⟨⟨_,_,hgoes⟩,fun h => absurd h hform⟩

theorem Kept.all_parts {a b : Mark} {parent : Value} {place : Option Attr} {ds : List Datum} {vs : List Value}
    (h : Kept (buildEach ds parent place) p a b vs t) : ∀ v ∈ vs, t.PartOf form v := by
  intro v hv
  obtain ⟨i,hi⟩ := List.getElem?_of_mem hv
  obtain ⟨_,⟨m,_,rfl,-⟩,-⟩ := h.all_honest v hv
  obtain ⟨d,_,_,-,hm,-⟩ := h.member hi
  obtain ⟨_,_,_,-,hg⟩ := hm.grown
  exact hg.partOf

/-- A text as a whole is converted to all that it is read as, separators too. -/
theorem itemsFrom_text_own (hheld : Held s w l n f k form) (hform : form.mends = true) (text : String) :
    (itemsFrom w (.text text)).Meets (fun s' => s' = s) (Store.Frame (.own n)) (fun xs t => ∀ x ∈ xs, t.PartOf form x) := by
  have hlist : ∀ d p s l' t, buildList d (.list l) (some (.field f)) p s = .ok l' t →
      ∀ lc, t.lists[l'.index]? = some lc → ∀ x ∈ lc.items, t.PartOf form x := by
    intro d p s l' t h lc hlc
    obtain ⟨-,ms,ds,b,hl,hrow,-⟩ := buildList_kept h
    cases hlc.symm.trans hl
    exact hrow.all_parts
  have hread : Gives (.own n) (fun s => Held s w l n f k form)
      (fun l' s => ∀ lc, s.lists[l'.index]? = some lc → ∀ x ∈ lc.items, s.PartOf form x)
      (listOfText n text (.list l) (some (.field f))) := by
    cases form with
    | comma =>
      refine listOfText_gives (F := .own n) stable_held (fun _ hs => hs.kind) hlist (fun s l' h lc hlc => ?_) hheld.through
        (fun g hg => ⟨rfl,fun h => hg (Attr.field.inj h)⟩) text
      obtain ⟨lc',hlc',-,hitems⟩ := h
      cases hlc.symm.trans hlc'
      rw [hitems]
      simp
    | dotted => exact listOfText_dotted stable_held (fun _ h => h) hlist hheld.through text
    | _ => cases hform
  have hgives : Gives (.own n) (fun s => Held s w l n f k form) (fun xs s => ∀ x ∈ xs, s.PartOf form x)
      (itemsFrom w (.text text)) := by
    unfold itemsFrom
    refine .ask (fun s c hs hc => ?_)
    obtain ⟨hcform,htarget,hplace⟩ := hs.seen hc
    have hwhole : Gives (.own n) (fun s => Held s w l n f k form) (fun xs s => ∀ x ∈ xs, s.PartOf form x)
        (do items (← listFor (← listHolder c) (.text text) c.target c.place) : Edit (List Value)) := by
      refine .ask (fun s holder hs hholder => ?_)
      obtain rfl := hs.holder_eq htarget hholder
      rw [htarget,hplace]
      have hmade : Gives (.own n) (fun s => Held s w l n f k form) (fun v s => ∃ l', v = .list l' ∧
          ∀ lc, s.lists[l'.index]? = some lc → ∀ x ∈ lc.items, s.PartOf form x)
          (listFor (.node n) (.text text) (.list l) (some (.field f))) :=
        .bind hread (fun l' => .pure (fun s hs => ⟨l',rfl,hs.2⟩))
      refine .bind hmade (fun v => Edit.Meets.read (fun s => .refl _ s) (fun xs s hs hxs => ⟨hs,?_⟩))
      obtain ⟨l',rfl,hparts⟩ := hs.2
      obtain ⟨lc,hlc,rfl⟩ := items_list_ok.mp hxs
      exact hparts lc hlc
    rw [hcform]
    cases form with
    | comma => exact hwhole
    | dotted => exact hwhole
    | _ => cases hform
  exact Edit.Meets.weaken hgives (fun s' hs' => hs' ▸ hheld) (fun _ _ h => h.2)

/-- A call on a view. Items are added at the end, or put in the place of others, by a value of any sort. -/
inductive Call where
  | plain (c : Change)
  | extend (v : Value)
  | putSpan (span : Span) (v : Value)

namespace Call

def run (w : ViewId) : Call → Edit Unit
  | plain c => c.run w
  | extend v => askView w "extend" [v]
  | putSpan span v => putAt (.view w) (.span span) v

/-- The values that a call is given, as far as they are given one by one. -/
def values (s : Store) : Call → List Value
  | plain c => c.values s
  | extend v | putSpan _ v =>
    match items v s with
    | .ok vs => vs
    | .error _ => []

/-- The items that stand for what a call is given. -/
def convert (w : ViewId) (s : Store) : Call → Edit (List Value)
  | plain c => itemsFromEach w (c.values s)
  | extend v | putSpan _ v => itemsFrom w v

/-- What the call makes of some items, as in an ordinary list. -/
def Makes (D xs D' : List Value) : Call → Prop
  | plain c => c.Makes D xs D'
  | extend _ => D' = D ++ xs
  | putSpan span _ => D' = spliced span xs D

def passes : Call → List Direction
  | plain c => c.passes
  | extend _ => [.adding]
  | putSpan _ _ => [.taking,.adding,.taking,.adding]

theorem Makes.mem {call : Call} {D' : List Value} {x : Value} (h : call.Makes D xs D') (hx : x ∈ D') : x ∈ D ∨ x ∈ xs := by
  cases call with
  | plain c => exact Change.Makes.mem h hx
  | extend v => exact Change.Makes.mem (show (Change.extend ⟨0⟩).Makes D xs D' from h) hx
  | putSpan span v => exact Change.Makes.mem (show (Change.putSpan span ⟨0⟩).Makes D xs D' from h) hx

end Call

theorem viewForm_comma (f : Field) : Kind.viewForm .comma f = none := by
  cases f <;> rfl

/-- The node that holds the list is no part of it that could be aligned. -/
theorem Held.partOf_frame (hheld : Held s w l n f k form) (h : s.PartOf form v) (hF : s.Frame (.own n) t) : t.PartOf form v := by
  refine h.frame hF (fun _ h => h.2 rfl) (fun hcomma hlaid => hlaid.frame hF ?_ (fun l hl => hl.frame hF id))
  rintro m rfl ⟨rfl,-⟩
  obtain ⟨_,c,heq,hc,hcomma⟩ := hcomma
  cases heq
  obtain ⟨c',hc',rfl⟩ := hheld.kind
  cases hc.symm.trans hc'
  have hthrough := hheld.through
  rw [hcomma.kind,viewForm_comma] at hthrough
  cases hthrough

section Call
variable {call : Call} (h : Listed s w l n f k form [] D L) (hform : form.mends = true)
include h hform

omit hform in
theorem Listed.frame (hF : s.Frame (.own n) t) : Listed t w l n f k form [] D L :=
  ⟨stable_held _ _ h.held hF,h.shown.frame hF id,
    fun x hx => (h.entries x hx).imp (fun hx => hx.frame hF (fun _ h => h.2 rfl)) (fun hx => by cases hx.1),
    h.behind.frame hF id,fun x hx => h.held.partOf_frame (h.parts x hx) hF⟩

omit hform in
theorem Listed.showing {new D' : List Value} (hD' : ∀ x ∈ D', x ∈ D ∨ x ∈ new) (hnew : ∀ x ∈ new, s.PartOf form x) :
    Listed (s.showing w D') w l n f k form new D' L := by
  refine ⟨stable_held _ _ h.held (Store.frame_showing (F := .editing w l) rfl D'),h.shown.other D',fun x hx => ?_,h.behind,h.parts⟩
  rcases hD' x hx with hx | hx
  · exact .inl ((h.entries x hx).resolve_right (fun hx => by cases hx.1))
  · exact .inr ⟨hx,hnew x hx⟩

/-- To convert what a call is given, attributes are changed of no other node than the one that holds the list. -/
theorem Listed.converted (hgiven : form = .comma → ∀ v ∈ call.values s, s.Sound "comma" v) :
    (call.convert w s).Meets (fun s' => s' = s) (Store.Frame (.own n)) (fun xs t => ∀ x ∈ xs, t.PartOf form x) := by
  have heach : ∀ {vs : List Value}, (form = .comma → ∀ v ∈ vs, s.Sound "comma" v) → (itemsFromEach w vs).Meets (fun s' => s' = s)
      (Store.Frame (.own n)) (fun xs t => ∀ x ∈ xs, t.PartOf form x) := fun hvs =>
    Edit.Meets.weaken (itemsFromEach_own h.held hform hvs) (fun _ h => h) (fun _ _ hxs x hx => .inl (hxs x hx))
  have hany : ∀ v, (form = .comma → ∀ x ∈ (Call.extend v).values s, s.Sound "comma" x) → (itemsFrom w v).Meets (fun s' => s' = s)
      (Store.Frame (.own n)) (fun xs t => ∀ x ∈ xs, t.PartOf form x) := by
    intro v hv
    by_cases htext : ∃ text, v = .text text
    · obtain ⟨text,rfl⟩ := htext
      exact itemsFrom_text_own h.held hform text
    · rintro p s' rfl
      obtain ⟨c,hc,hcform,-⟩ := h.held.view
      have hrun : itemsFrom w v p s' = (do itemsFromEach w (← items v) : Edit (List Value)) p s' := by
        refine (Edit.view_known hc).trans ?_
        rw [hcform]
        cases form with
        | comma | dotted =>
          cases v with
          | text text => exact absurd ⟨text,rfl⟩ htext
          | _ => rfl
        | _ => cases hform
      rw [hrun]
      cases hvs : items v s' with
      | error fault =>
        rw [Edit.read_failed hvs]
        exact Store.Frame.refl _ s'
      | ok vs =>
        rw [Edit.read_known hvs]
        refine heach (fun hf x hx => hv hf x ?_) p s' rfl
        simp only [Call.values,hvs]
        exact hx
  cases call with
  | plain c => exact heach hgiven
  | extend v => exact hany v hgiven
  | putSpan span v => exact hany v hgiven

/-- A call that fails before its passes leaves the view and the list alone. -/
theorem Listed.failed (hgiven : form = .comma → ∀ v ∈ call.values s, s.Sound "comma" v)
    (hrun : call.run w p s = .error fault u) : u.ShowsItems w D ∧ u.HasItems l .nodes L ∨
      ∃ xs t D', call.convert w s p s = .ok xs t ∧ call.Makes D xs D' ∧ s.Frame (.own n) t ∧
        Listed (t.showing w D') w l n f k form xs D' L ∧ PassesTo p w call.passes (t.showing w D') (.error fault u) := by
  have hmeets := h.converted hform hgiven
  have hkeeps : ∀ {t}, s.Frame (.own n) t → t.ShowsItems w D ∧ t.HasItems l .nodes L := fun hF =>
    ⟨h.shown.frame hF id,h.behind.frame hF id⟩
  have hshown : ∀ xs t, call.convert w s p s = .ok xs t → t.ShowsItems w D := fun xs t hxs =>
    (hkeeps (Edit.Meets.frame_ok hmeets rfl hxs).1).1
  have hmade : ∀ {xs t D'}, call.convert w s p s = .ok xs t → call.Makes D xs D' →
      PassesTo p w call.passes (t.showing w D') (.error fault u) → ∃ xs t D', call.convert w s p s = .ok xs t ∧
        call.Makes D xs D' ∧ s.Frame (.own n) t ∧ Listed (t.showing w D') w l n f k form xs D' L ∧
        PassesTo p w call.passes (t.showing w D') (.error fault u) := by
    intro xs t D' hxs hmakes hpasses
    obtain ⟨hF,hparts⟩ := Edit.Meets.frame_ok hmeets rfl hxs
    exact ⟨xs,t,D',hxs,hmakes,hF,(h.frame hF).showing (fun x hx => hmakes.mem hx) hparts,hpasses⟩
  have hplain := form.mends_plain hform
  obtain ⟨vc,hvc,hvform,-⟩ := h.held.view
  have hread : ∀ {e : ViewCell → Edit Unit}, (do e (← Read.view w) : Edit Unit) p s = e vc p s :=
    Edit.view_known hvc
  cases call with
  | plain c =>
    have hcourse := Change.run_course h.shown (fun x hx => (h.all x hx).typed.node)
      (fun _ hc _ => h.held.plain hplain hc) hshown
    rw [show c.run w p s = .error fault u from hrun] at hcourse
    cases hcourse with
    | refused => exact .inl ⟨h.shown,h.behind⟩
    | unread hxs => exact .inl (hkeeps (Edit.Meets.frame_error hmeets rfl hxs))
    | misplaced _ hxs => exact .inl (hkeeps (Edit.Meets.frame_ok hmeets rfl hxs).1)
    | made hxs hmakes hpasses => exact .inr (hmade hxs hmakes hpasses)
  | extend v =>
    have hask : (Call.extend v).run w = (do let _ ← Read.view w; extendView w v) := by
      unfold Call.run
      exact askView_eq (fun _ => by rfl)
    rw [hask,hread,extendView,hread,if_neg (by rw [hvform]; simpa using hplain.2)] at hrun
    cases hxs : itemsFrom w v p s with
    | error fault' t =>
      cases (Edit.bind_failed hxs).symm.trans hrun
      exact .inl (hkeeps (Edit.Meets.frame_error hmeets rfl hxs))
    | ok xs t =>
      rw [Edit.bind_known hxs] at hrun
      exact .inr (hmade hxs rfl (hrun ▸ .updated (hshown _ _ hxs) (fun D => D ++ xs) (.after _ _)))
  | putSpan span v =>
    change (do replaceSpan w span v; realign w : Edit Unit) p s = _ at hrun
    rw [replaceSpan,bind_assoc] at hrun
    cases hxs : itemsFrom w v p s with
    | error fault' t =>
      cases (Edit.bind_failed hxs).symm.trans hrun
      exact .inl (hkeeps (Edit.Meets.frame_error hmeets rfl hxs))
    | ok xs t =>
      rw [Edit.bind_known hxs] at hrun
      exact .inr (hmade hxs (replace_eq ..)
        (hrun ▸ .bind (.updated (hshown _ _ hxs) (span.replace xs) (.realign _)) rfl .realign))

end Call

section Fresh
variable {source : String} {r o : Store} {top : ViewId} {root : ListId} {keys : List Key} {vc : ViewCell} {lc : ListCell}

/-- The lists of items between commas or dots in a new document. -/
theorem newDocument_listed (hmade : newDocument source p r = .ok (.view top) o) (hroot : behind (.view top) o = .ok (.list root))
    (hreach : o.Reaches root keys (.node n)) (hc : o.nodes[n.index]? = some c) (hthrough : c.kind.viewForm f = some form)
    (hform : form.mends = true) (hw : c.stored? (.field f) = some (.view w)) (hvc : o.views[w.index]? = some vc)
    (htarget : vc.target = .list l) (hlc : o.lists[l.index]? = some lc) :
    Listed o w l n f c.kind form [] vc.items lc.items ∧ (form = .comma → ∃ flat, InStyle o w flat vc.items) := by
  obtain ⟨_,_,_,_,_,hg,-⟩ := newDocument_planted hmade hroot hreach hc
  obtain ⟨_,l',vs,shown,style,ds,x,e,t,hthrough',hcell,hlist,hrow,hrow',ht,hviewed⟩ := hg.view_shown hw
  cases hthrough.symm.trans hthrough'
  cases hvc.symm.trans hcell
  cases htarget
  cases hlc.symm.trans hlist
  have hlines : form.lineBased = false := by
    cases form <;> first | rfl | cases hform
  have htells : ∀ k, Kind.ofWord? form.separator = some k → k.separates = true := by
    cases form with
    | comma => exact separating_comma
    | dotted => exact separating_dot
    | _ => cases hform
  obtain ⟨tc,htc,hshown⟩ := significant_ok (underlying_list _ t) (hviewed.others hlines)
  cases ht.symm.trans htc
  refine ⟨⟨⟨⟨_,hcell,rfl,rfl,rfl⟩,⟨_,hlist,rfl,rfl,rfl⟩,⟨c,hc,rfl⟩,hthrough⟩,⟨_,hcell,rfl⟩,fun v hv => ?_,⟨_,hlist,rfl,rfl⟩,
    fun v hv => ?_⟩,fun hf => ?_⟩
  · -- What is shown was no separator when the view was made.
    obtain ⟨hmem,hsep⟩ := withoutSeparators_mem hshown v hv
    obtain ⟨k,type,hgoes,hgoes'⟩ := hrow'.types hrow v hmem
    obtain ⟨_,type',hgoes'',hne⟩ := ((hrow'.all_honest v hmem).tells htells).item hsep
    cases hgoes.typeOf.symm.trans hgoes''.typeOf
    exact .inl ⟨k,type,hgoes',hne⟩
  · exact hrow.all_parts v hv
  · obtain ⟨b,-,hstyle⟩ := hviewed.comma hf
    refine ⟨!b,_,hcell,rfl,?_⟩
    cases b <;> exact hstyle

/-- A call on a list of items between commas or dots in a new document that fails leaves the view and the list behind it alone,
with two exceptions. In indented style a pass can fail over the indentation of the node that holds the list, and a text can bring
commas along that cannot be copied. The view then shows what the call made of its items. -/
theorem run_failed_unchanged {call : Call} (hmade : newDocument source p r = .ok (.view top) o)
    (hroot : behind (.view top) o = .ok (.list root)) (hreach : o.Reaches root keys (.node n)) (hc : o.nodes[n.index]? = some c)
    (hthrough : c.kind.viewForm f = some form) (hform : form = .comma ∨ form = .dotted)
    (hw : c.stored? (.field f) = some (.view w)) (hvc : o.views[w.index]? = some vc) (htarget : vc.target = .list l)
    (hlc : o.lists[l.index]? = some lc) (hgrows : o.Grows s)
    (hgiven : form = .comma → ∀ v ∈ call.values s, s.Sound "comma" v) (hrun : call.run w p s = .error fault u) :
    u.ShowsItems w vc.items ∧ u.HasItems l .nodes lc.items ∨
    ∃ xs t D', call.convert w s p s = .ok xs t ∧ call.Makes vc.items xs D' ∧ u.ShowsItems w D' ∧
      (vc.style = some (.text "indented") ∨ form = .comma ∧ ∃ e ∈ xs, ∃ s' : Store, s'.Uncopied p e fault u) := by
  have hmends : form.mends = true := by rcases hform with rfl | rfl <;> rfl
  obtain ⟨hlisted,hstyle⟩ := newDocument_listed hmade hroot hreach hc hthrough hmends hw hvc htarget hlc
  have hstart : o.Frame (.own n) s := hgrows.frame _
  rcases (hlisted.frame hstart).failed hmends hgiven hrun with h | ⟨xs,t,D',hxs,hmakes,hF,hlisted',hpasses⟩
  · exact .inl h
  refine .inr ⟨xs,t,D',hxs,hmakes,hlisted'.shown.frame (hpasses.frame (bringInStep_behind hmends) hlisted'.held rfl) id,?_⟩
  -- In any other style a pass can only fail over a comma that cannot be copied.
  by_cases hindented : vc.style = some (.text "indented")
  · exact .inl hindented
  have hpassable : Passable (t.showing w D') w l n f c.kind form xs D' lc.items := by
    refine ⟨hlisted',fun hf => ?_⟩
    obtain ⟨flat,hstyle⟩ := hstyle hf
    cases flat with
    | true => exact (hstyle.frame (hstart.trans hF) id).showing D'
    | false =>
      obtain ⟨vc',hvc',-,hword⟩ := hstyle
      cases hvc.symm.trans hvc'
      exact absurd hword hindented
  exact .inr (hpassable.passes hmends hpasses rfl)

/-- A parser that takes the empty text for two names in brackets and refuses all others. -/
def strictParser : Parser := fun text => if text = "" then bracketsParser text else .error (.unparsable "")

theorem run_failed_unchanged_brackets : ∃ top o vc lc fault u, newDocument "" strictParser .empty = .ok (.view top) o ∧
    o.views[1]? = some vc ∧ o.lists[4]? = some lc ∧ (Call.extend (.text "c, (")).run ⟨1⟩ strictParser o = .error fault u ∧
    u.ShowsItems ⟨1⟩ vc.items ∧ u.HasItems ⟨4⟩ .nodes lc.items := by
  obtain ⟨top,o,root,n,c,hmade,hroot,hreach,hc,hkind,hfacts⟩ := newDocument_tested "" strictParser .list (fun _ t n =>
    (t.nodes[n.index]?).any (fun c => (c.stored? (.field .value)).any (·.is (.view ⟨1⟩))) &&
    (t.views[1]?).any (fun c => c.target.is (.list ⟨4⟩)) && (t.lists[4]?).any (fun _ => true) &&
    !((Call.extend (.text "c, (")).run ⟨1⟩).succeeds strictParser t &&
    !(itemsFrom ⟨1⟩ (.text "c, (")).succeeds strictParser t) (by decide +kernel) rfl (by decide +kernel)
  simp only [hc,Option.any_some,Bool.and_eq_true,Option.any_eq_true,Value.is_list,Value.is_view,
    exists_eq_right,and_true,Bool.not_eq_true',Edit.succeeds] at hfacts
  obtain ⟨⟨⟨⟨hw,vc,hvc,htarget⟩,lc,hlc⟩,hfails⟩,hunread⟩ := hfacts
  split at hfails
  · cases hfails
  next fault u hrun =>
  have hgiven : ∀ v ∈ (Call.extend (.text "c, (")).values o, o.Sound "comma" v := by
    intro v hv
    obtain ⟨x,-,rfl⟩ := List.mem_map.mp (show v ∈ "c, (".toList.map (fun x => Value.text (String.singleton x)) from hv)
    trivial
  rcases run_failed_unchanged hmade hroot hreach hc (by rw [hkind]; rfl : _ = some .comma) (.inl rfl) hw hvc htarget hlc (.refl o)
    (fun _ => hgiven) hrun with h | ⟨xs,t,D',hxs,-⟩
  · exact ⟨top,o,vc,lc,fault,u,hmade,hvc,hlc,hrun,h⟩
  · rw [show itemsFrom ⟨1⟩ (.text "c, (") strictParser o = .ok xs t from hxs] at hunread
    cases hunread

end Fresh

end CodeTree
