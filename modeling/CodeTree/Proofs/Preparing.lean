import CodeTree.Proofs.Refitting

/-! # Fields that are set before a text is parsed

Some places put the spacing around them in order, or set a flag or a delimiter, before they parse the text that they are
given. What they set is a list of fields with a datum for each of them. An edit that is cut short has set the first few of
these fields and no others.
-/
namespace CodeTree
variable {p : Parser} {s t u v : Store} {n : NodeId} {k : Kind} {c : NodeCell} {f : Field} {form : Form} {F G : Nat}
  {part : Field → Datum} {sets sets' : List (Field × Datum)}

section Steps

/-- Data for fields, with other data for some of them, one after the other. -/
def refit (part : Field → Datum) (sets : List (Field × Datum)) : Field → Datum := sets.foldl exchange part

theorem refit_append (part : Field → Datum) (sets sets' : List (Field × Datum)) :
    refit part (sets ++ sets') = refit (refit part sets) sets' := List.foldl_append

/-- The first few of some fields have been set. -/
def Leaves (t : Store) (n : NodeId) (k : Kind) (F : Nat) (part : Field → Datum) (sets : List (Field × Datum)) (u : Store) : Prop :=
  ∃ done, done <+: sets ∧ Refits t n k F (refit part done) u

theorem Refits.leaves (h : Refits t n k F part u) (sets : List (Field × Datum)) : Leaves t n k F part sets u :=
  ⟨[],List.nil_prefix,h⟩

/-- An edit that sets fields of a node, one after the other. -/
def Prepares (p : Parser) (t : Store) (n : NodeId) (k : Kind) (F : Nat) (sets : List (Field × Datum)) (e : Edit Unit) : Prop :=
  ∀ ⦃part u⦄, Refits t n k F part u → e.Ends p u (fun _ v => Refits t n k F (refit part sets) v) (Leaves t n k F part sets)

namespace Prepares

theorem pure : Prepares p t n k F [] (Pure.pure ()) := fun _ _ h => Edit.Ends.pure h

theorem throw (fault : Fault) : Prepares p t n k F [] (MonadExcept.throw fault) := fun _ _ h => Edit.Ends.throw (h.leaves _)

theorem ask {α : Type} {r : Read α} {e : α → Edit Unit} (h : ∀ a, Prepares p t n k F sets (e a)) :
    Prepares p t n k F sets (do e (← r)) := fun _ _ hu => .ask (fun a _ => h a hu) (hu.leaves _)

theorem bind {x y : Edit Unit} (hx : Prepares p t n k F sets x) (hy : Prepares p t n k F sets' y) :
    Prepares p t n k F (sets ++ sets') (do x; y) := by
  intro part u hu
  refine .bind ((hx hu).imp (fun _ v hv => ?_) (fun v hv => ?_))
  · refine (hy hv).imp (fun _ w hw => ?_) (fun w hw => ?_)
    · rw [refit_append]
      exact hw
    · obtain ⟨done,hdone,hw⟩ := hw
      refine ⟨sets ++ done,(List.prefix_append_right_inj sets).mpr hdone,?_⟩
      rw [refit_append]
      exact hw
  · obtain ⟨done,hdone,hv⟩ := hv
    exact ⟨done,hdone.trans (List.prefix_append sets sets'),hv⟩

theorem ite {b : Bool} {x y : Edit Unit} (hx : Prepares p t n k F sets x) (hy : Prepares p t n k F sets' y) :
    Prepares p t n k F (if b then sets else sets') (if b then x else y) := by
  cases b with
  | true => exact hx
  | false => exact hy

/-- Setting the spacing under a field of a finished node. -/
theorem setSpacing (hform : k.formOf f = some .formatting) (hF : 1 ≤ F) (place : Option Attr) (present : Bool) :
    Prepares p t n k F [(f,spacing present)] (setSpacing n f place present) := by
  intro part u hu
  obtain ⟨c,hc,hkind,hb,-,hlists,-⟩ := hu.cell
  have hloose : (c.building || !c.lists.contains f) = false := by
    rcases Kind.formOf_cases hform with ⟨-,h⟩ | ⟨shown,hslot⟩
    · cases h
    · have hmem : f ∈ k.listFields := mem_foldl_add.mpr (.inr ⟨.formatting,shown,rfl,hslot⟩)
      rw [hb,hlists]
      simpa using hmem
  have hn := Store.lt_nodes_of_get hc
  -- The new list is behind all that the node had.
  have hput : ∀ w l items, u.Grows w → w.lists[l.index]? = some ⟨.nodes,items,.none,none,[]⟩ →
      (∀ v fuel, w.Drifts (.whole n) v → F ≤ fuel → ∃ parts, items.mapM (snapshotAt fuel) v = .ok parts ∧ .list parts = spacing present) →
      Refits t n k F (refit part [(f,spacing present)]) (w.mapNode n (·.put (.field f) (.list l))) := by
    intro w l items hw hl hitems
    refine (hu.grows hw).put hform (fun v fuel hv hfuel => ?_)
    obtain ⟨parts,hparts,he⟩ := hitems v fuel hv hfuel
    exact ⟨items,parts,(hv.members_list hl (fun h => h)).2,hparts,he⟩
  unfold CodeTree.setSpacing
  refine .ask (fun c' hc' => ?_) (hu.leaves _)
  cases (Read.node_ok.mp hc').symm.trans hc
  rw [hloose]
  cases present with
  | true =>
    refine hput ((u.addNode (spaceCell (.node n) (some (.field f)))).addList ⟨.nodes,[.node ⟨u.nodes.size⟩],.none,none,[]⟩)
      ⟨u.lists.size⟩ [.node ⟨u.nodes.size⟩] ((u.grows_addNode _).trans (Store.grows_addList _ _)) ?_ (fun v fuel hv hfuel => ?_)
    · exact (Store.addList_get _ _ _).trans (if_pos rfl)
    · have hspace : ((u.addNode (spaceCell (.node n) (some (.field f)))).addList
          ⟨.nodes,[.node ⟨u.nodes.size⟩],.none,none,[]⟩).nodes[u.nodes.size]? = some (spaceCell (.node n) (some (.field f))) :=
        (Store.addNode_get _ _ _).trans (if_pos rfl)
      obtain _ | fuel := fuel
      · omega
      have hsnapshot : snapshotAt (fuel + 1) (.node ⟨u.nodes.size⟩) v = .ok spaceDatum :=
        (hv.snapshot_space hspace (fun _ h => Nat.ne_of_gt hn (congrArg NodeId.index h))).trans (snapshot_space hspace fuel)
      exact ⟨[spaceDatum],Read.mapM_ok (g := fun _ => spaceDatum) (by simpa using hsnapshot),rfl⟩
  | false =>
    refine hput (u.addList ⟨.nodes,[],.none,none,[]⟩) ⟨u.lists.size⟩ [] (u.grows_addList _) ?_ (fun v fuel hv hfuel => ?_)
    · rw [Store.addList_get,if_pos rfl]
    · exact ⟨[],rfl,rfl⟩

theorem putAttr {x : Value} {d : Datum} (hform : k.formOf f = some form) (hx : ∀ u, Store.StaysRead u n F form x d) :
    Prepares p t n k F [(f,d)] (putAttr n (.field f) x) := fun _ u hu => hu.put hform (hx u)

end Prepares

end Steps

section Children
variable {filled : Bool}

/-- What is set before a text is parsed for a field, given whether there is any text. -/
def Kind.preparations (k : Kind) (f : Field) (filled : Bool) : List (Field × Datum) :=
  match k, f with
  | .assertStmt, .message => if filled then [(.thirdFormatting,spacing true)] else []
  | .exceptBranch, .exception =>
    if filled then [(.firstFormatting,spacing true)]
    else [(.firstFormatting,spacing false),(.delimiter,.text ""),(.delimiter,.text ""),(.secondFormatting,spacing false),
      (.thirdFormatting,spacing false),(.target,.record [])]
  | .exceptBranch, .target =>
    if filled then [(.secondFormatting,spacing true),(.thirdFormatting,spacing true),(.delimiter,.text "as"),
      (.secondFormatting,spacing true),(.thirdFormatting,spacing true)]
    else [(.delimiter,.text ""),(.secondFormatting,spacing false),(.thirdFormatting,spacing false)]
  | .execStmt, .globals => if filled then [(.secondFormatting,spacing true),(.thirdFormatting,spacing true)] else []
  | .execStmt, .locals => if filled then [(.fifthFormatting,spacing true)] else []
  | .raiseStmt, .value => [(.firstFormatting,spacing filled)]
  | .raiseStmt, .instanceValue => if filled then [(.thirdFormatting,spacing true)] else []
  | .raiseStmt, .traceback => if filled then [(.fifthFormatting,spacing true)] else []
  | .returnStmt, .value | .yieldExpr, .value => [(.formatting,spacing filled)]
  | .yieldAtom, .value => [(.secondFormatting,spacing filled)]
  | .slice, .step => [(.hasTwoColons,.bool filled)]
  | .withContextItem, .alias => [(.firstFormatting,spacing filled),(.secondFormatting,spacing filled)]
  | .printStmt, .value => if filled then [(.formatting,spacing true)] else []
  | .classDef, .inheritFrom => [(.parenthesis,.bool filled)]
  | .lambdaExpr, .arguments => [(.firstFormatting,spacing filled)]
  | _, _ => []

theorem requires_prepares (g : Field) (why : Refusal) : Prepares p t n k F [] (do
    if !(← truth (← look n (.field g))) then throw (.refused why)) := by
  refine .ask (fun x => .ask (fun present => ?_))
  cases present with
  | true => exact .pure
  | false => exact .throw _

theorem delimit_none_prepares : Prepares p t n .exceptBranch F [(.delimiter,.text "")] (do
    let x ← prepareStore n .exceptBranch (.field .delimiter) (.text "")
    putAttr n (.field .delimiter) x) :=
  Prepares.putAttr (show Kind.exceptBranch.formOf .delimiter = some .text by decide) (fun _ => rfl)

theorem delimit_as_prepares (hF : 1 ≤ F) : Prepares p t n .exceptBranch F
    [(.secondFormatting,spacing true),(.thirdFormatting,spacing true),(.delimiter,.text "as")] (do
    let x ← prepareStore n .exceptBranch (.field .delimiter) (.text "as")
    putAttr n (.field .delimiter) x) := by
  have hrun : (do
      let x ← prepareStore n .exceptBranch (.field .delimiter) (.text "as")
      putAttr n (.field .delimiter) x) = (do
      setSpacing n .secondFormatting (some (.field .delimiter)) true
      setSpacing n .thirdFormatting (some (.field .delimiter)) true
      putAttr n (.field .delimiter) (.text "as")) := by
    change (do
      setSpacing n .secondFormatting (some (.field .delimiter)) true
      setSpacing n .thirdFormatting (some (.field .delimiter)) true
      pure (Value.text "as")) >>= putAttr n (.field .delimiter) = _
    simp only [bind_assoc,pure_bind]
  rw [hrun]
  refine Prepares.bind (.setSpacing (by decide) hF _ _) (.bind (.setSpacing (by decide) hF _ _) ?_)
  exact .putAttr (show Kind.exceptBranch.formOf .delimiter = some .text by decide) (fun _ => rfl)

theorem prepareChild_prepares (hctx : (k.childContext f).isSome = true) (hF : 1 ≤ F) (filled : Bool) :
    Prepares p t n k F (k.preparations f filled) (prepareChild n k f filled) := by
  have hspacing : ∀ {k f present}, k.formOf f = some .formatting →
      Prepares p t n k F [(f,spacing present)] (setSpacing n f none present) := fun hform => .setSpacing hform hF none _
  unfold Kind.preparations
  split
  · exact .ite (hspacing (by decide)) .pure
  · refine .ite (hspacing (by decide)) ?_
    refine .bind (hspacing (by decide)) (.bind delimit_none_prepares (.bind (requires_prepares _ _) ?_))
    refine .bind delimit_none_prepares (.bind (hspacing (by decide)) (.bind (hspacing (by decide)) ?_))
    exact .putAttr (show Kind.exceptBranch.formOf .target = some .child by decide) (fun _ => .inl ⟨.inr rfl,rfl⟩)
  · refine .bind (requires_prepares _ _) (.ite ?_ ?_)
    · exact .bind (delimit_as_prepares hF) (.bind (hspacing (by decide)) (hspacing (by decide)))
    · exact .bind delimit_none_prepares (.bind (hspacing (by decide)) (hspacing (by decide)))
  · exact .ite (.bind (hspacing (by decide)) (hspacing (by decide))) .pure
  · exact .bind (requires_prepares _ _) (.ite (hspacing (by decide)) .pure)
  · exact hspacing (by decide)
  · exact .bind (requires_prepares _ _) (.ite (hspacing (by decide)) .pure)
  · exact .bind (requires_prepares _ _) (.ite (hspacing (by decide)) .pure)
  · exact hspacing (by decide)
  · exact hspacing (by decide)
  · exact hspacing (by decide)
  · exact .putAttr (show Kind.slice.formOf .hasTwoColons = some .flag by decide) (fun _ => rfl)
  · exact .bind (hspacing (by decide)) (hspacing (by decide))
  · cases hctx
  · cases hctx
  · cases hctx
  · unfold prepareChild
    split
    all_goals first | exact .pure | simp_all

end Children

end CodeTree
