import CodeTree.Proofs.Attaching
import CodeTree.Proofs.Navigating
import CodeTree.Proofs.Positions

/-! # Putting values beside a node

A node that is told to put something before or after itself tells what holds it to do so, at its own position in the view that
it is in. A document does as it is told; a node hands on to the view that is its value. So this is the same as putting the
value into the view that the node is in, if that view is the document or the value of its holder. From a view under any other
field the position is taken to the value of the holder, and nothing is done if that is no view or shows nothing.
-/
namespace CodeTree
variable {p : Parser} {s t : Store} {source : String} {top w : ViewId} {vc : ViewCell} {n m : NodeId} {c : NodeCell}
  {root l : ListId} {height i fuel : Nat} {holder v : Value} {place : Attr} {a : Arguments} {after b : Bool}

/-- The views of a document and where they are held: the document itself, or under a field of a node that keys lead to. -/
inductive Store.ViewAt (t : Store) (top : ViewId) : Value → Attr → ViewId → Prop where
  | document : Store.ViewAt t top (.view top) .root top
  | field {root : ListId} {keys : List Key} {n : NodeId} {c : NodeCell} {f : Field} {w : ViewId}
      (rooted : behind (.view top) t = .ok (.list root)) (above : t.Reaches root keys (.node n))
      (cell : t.nodes[n.index]? = some c) (stored : c.stored? (.field f) = some (.view w)) :
      Store.ViewAt t top (.node n) (.field f) w

/-- The view that a node holds as its value. -/
def Store.valueView (t : Store) (n : NodeId) : Option ViewId :=
  match (t.nodes[n.index]?).bind (NodeCell.stored? · (.field .value)) with
  | some (.view w) => some w
  | _ => none

theorem Store.valueView_eq (hc : t.nodes[n.index]? = some c) :
    t.valueView n = some w ↔ c.stored? (.field .value) = some (.view w) := by
  unfold Store.valueView
  rw [hc,Option.bind_some]
  split
  · next q hq => simp [hq]
  · next hno => exact ⟨nofun,fun h => absurd h (hno w)⟩

/-- The view that takes what is put beside something that a value holds, if there is one. -/
def Store.taker (t : Store) : Value → Option ViewId
  | .node n => if t.filled n then t.valueView n else none
  | .view w => some w
  | _ => none

section Places

/-- The items that a view of a new document shows hang where the view is held. -/
theorem Store.ViewAt.hangs (hat : t.ViewAt top holder place w) (h : newDocument source p s = .ok (.view top) t)
    (hvc : t.views[w.index]? = some vc) (hx : v ∈ vc.items) : ∃ m, v = .node m ∧ t.Hangs holder place m := by
  obtain ⟨root,height,hdoc⟩ := newDocument_rooted h
  have hitem : ∀ {ds : List Datum} {parent : Value} {q : Attr} {x e : Mark} {vs : List Value},
      Kept (buildEach ds parent (some q)) p x e vs t → v ∈ vs → ∃ m, v = .node m := by
    intro ds parent q x e vs hrow hv
    obtain ⟨ms,rfl,-⟩ := hrow.siblings (fun d _ => built_tree d) (Nat.zero_le _) (Nat.le_add_left e.nodes x.nodes)
    obtain ⟨m,-,rfl⟩ := List.mem_map.mp hv
    exact ⟨m,rfl⟩
  cases hat with
  | document =>
    obtain ⟨d,top',root',a,b,vs,shown,-,heq,hkept,-,hlist,hview,-,u,hlines,-⟩ := newDocument_made h
    cases heq
    cases hvc.symm.trans hview
    obtain ⟨ds,hrow,-⟩ := hkept.items
    have hv : v ∈ vs := by
      rcases (lineItems_statements hlines).2 v hx with hv | ⟨-,htruth⟩
      · exact hv
      · cases htruth
    obtain ⟨m,rfl⟩ := hitem hrow hv
    exact ⟨m,rfl,hdoc.hangs (.inl rfl) (.root hview rfl rfl) hlist rfl hv⟩
  | @field _ _ n _ _ _ rooted above cell stored =>
    obtain ⟨_,_,_,_,_,hg,-⟩ := newDocument_planted h rooted above cell
    cases rooted.symm.trans hdoc.rooted
    obtain ⟨form,l,vs,shown,style,ds,x,e,u,-,hcell,hlist,hrow,-,hu,hviewed⟩ := hg.view_shown stored
    cases hvc.symm.trans hcell
    have hv := hviewed.subset hu hx
    obtain ⟨m,rfl⟩ := hitem hrow hv
    exact ⟨m,rfl,hdoc.hangs (.inr ⟨n,rfl,(above.member hdoc).1 n rfl⟩) (.view cell stored hcell rfl) hlist rfl hv⟩

/-- The position of a node in the view that it is in, if what holds the view counts as true. -/
theorem Store.ViewAt.index (hat : t.ViewAt top holder place w) (hdoc : t.Document top root height)
    (hvc : t.views[w.index]? = some vc) (hitems : ∀ x ∈ vc.items, ∃ m, x = .node m) (hm : t.Hangs holder place m)
    (hi : vc.items[i]? = some (.node m)) (hfirst : .node m ∉ vc.items.take i) (hb : truth holder t = .ok b) :
    attr (.node m) "index_on_parent" t = .ok (if b then .int i else .none) := by
  have hheld : held holder (some place) t = .ok (.view w) := by
    cases hat with
    | document =>
      obtain ⟨rc,hrc,hform,-⟩ := hdoc.view
      exact held_root hrc hform
    | field _ _ cell stored => exact held_field cell stored
  obtain ⟨c,hc,hparent,hplace⟩ := hm
  refine attr_node_computed (show nodeProperties.lookup "index_on_parent" = some (indexInParent false) from rfl) ?_
  have hindex : indexOf (.node m) vc.items t = .ok i := indexOf_first (fun x hx => .inr (hitems x hx)) hi hfirst
  unfold indexInParent
  rw [Read.node_known hc,hparent,hplace,Read.bind_known hb]
  cases b with
  | false => rfl
  | true =>
    rw [if_neg (by simp),if_pos rfl,Read.bind_known hheld]
    dsimp only
    rw [Read.view_known hvc,if_neg (by simp)]
    change (indexOf (.node m) vc.items >>= _) t = _
    rw [Read.bind_known hindex]
    rfl

end Places

section Handing

theorem insert_sought : OnlySought "insert" := by
  refine ⟨by decide +kernel,by decide +kernel,?_⟩
  have hall : (nodeProperties.lookup "insert").isNone = true ∧ (listProperties.lookup "insert").isNone = true ∧
      (documentProperties.lookup "insert").isNone = true := by decide +kernel
  simpa only [Option.isNone_iff_eq_none] using hall

theorem Store.Tree.not_goesBy_insert (h : t.Tree height n) : t.goesBy "insert" n = false := by
  obtain ⟨j,c,rfl,hc⟩ := h.opens
  have hkinds : ∀ k : Kind, (sortedWords (([k.word,k.className,k.title,k.word ++ "_"] ++ k.otherWords).map
      Text.lower)).contains (soughtWord "insert") = false := by
    intro k
    cases k <;> decide +kernel
  unfold Store.goesBy NodeCell.identifiers NodeCell.typeValue
  rw [hc.cell,Option.map_some,hc.type]
  exact hkinds c.kind

section Holder
variable (hdoc : t.Document top root height) (hn : t.Member top n) (hc : t.nodes[n.index]? = some c)
include hdoc hn hc

theorem Store.Document.not_stored_insert : c.stored? (.ofWord "insert") = none := by
  obtain ⟨j,-,hs⟩ := (hdoc.member hn).stands hc
  cases hv : c.stored? (.ofWord "insert") with
  | none => rfl
  | some v => rcases hs.own _ _ hv with htype | ⟨f,-,hf⟩ <;> contradiction

/-- Searching for the word comes to nothing, since no node goes by it. -/
theorem Store.Document.attr_insert (hview : t.valueView n = none) : attr (.node n) "insert" t = .ok .none := by
  have hasked : t.asked n = [n] := by
    unfold Store.asked
    split
    · next w hw =>
      rw [Store.valueView,hw] at hview
      cases hview
    · rfl
  have hnone : t.firstBy "insert" [n] = none := by
    unfold Store.firstBy
    rw [List.flatMap_singleton,List.head?_eq_none_iff,List.eq_nil_iff_forall_not_mem]
    intro m hm
    obtain ⟨hout,hgoes⟩ := List.mem_filter.mp ((Store.sought_sublist _).subset hm)
    rw [((Store.descends_of_outline hout).tree (hdoc.member hn)).not_goesBy_insert] at hgoes
    cases hgoes
  rw [hdoc.attr_sought hn hc insert_sought (hdoc.not_stored_insert hn hc),hasked,hnone]
  rfl

theorem Store.Document.heldView : heldView? n t = .ok (t.valueView n) := by
  have hdepth := hdoc.depth
  obtain ⟨v,hv,hvalue⟩ := (hdoc.member hn).lookAt_value (show height ≤ t.depth by omega) (show height < t.depth by omega) hc
  have hlook : Read.orElseMissing (look n (.field .value)) (pure .none) t = .ok v := Read.orElseMissing_known hv
  unfold heldView? Store.valueView
  rw [Read.bind_known hlook,hc,Option.bind_some]
  rcases hvalue with hstored | ⟨hstored,rfl | rfl | ⟨_,_,rfl,-⟩⟩
  · rw [hstored]
    cases v <;> rfl
  all_goals
    rw [hstored]
    rfl

/-- A node hands on to its value what is to be put in. -/
theorem Store.Document.insert_node : callAt (fuel + 2) (.node n) "insert" a p t =
    (t.valueView n).elim (.error .wrongSort t) (fun w => callAt (fuel + 1) (.view w) "insert" a p t) := by
  have hown : c.own? (.ofWord "insert") = none := by
    rw [NodeCell.own_quiet insert_sought.quiet]
    exact hdoc.not_stored_insert hn hc
  have halias : c.alias? (.ofWord "insert") = none := NodeCell.alias_quiet insert_sought.quiet c
  conv_lhs => unfold callAt
  dsimp only
  rw [Edit.node_known hc]
  change (if (c.own? (.ofWord "insert")).isSome || (c.alias? (.ofWord "insert")).isSome ||
    (nodeProperties.lookup "insert").isSome then _ else _ : Edit Value) p t = _
  rw [hown,halias,insert_sought.uncomputed.1,if_neg (by simp),Edit.read_known (hdoc.heldView hn hc)]
  cases hview : t.valueView n with
  | some w => rfl
  | none =>
    dsimp only
    rw [Edit.read_known (hdoc.attr_insert hn hc hview)]
    rfl

end Holder

/-- How a node is told to put something before or after itself. -/
def besideWord (after : Bool) : String := if after then "insert_after" else "insert_before"

theorem callAt_beside {index : Value} (hc : t.nodes[m.index]? = some c) (hparent : c.parent = holder)
    (hholder : holder.isNone = false) (hindex : attr (.node m) "index_on_parent" t = .ok index) (after : Bool) :
    callAt (fuel + 1) (.node m) (besideWord after) (.ofList [v]) p t = (do
      let i ← Edit.lift (asInteger index)
      callAt fuel holder "insert" (.ofList [.int (if after then i + 1 else i),v]) : Edit Value) p t := by
  have hbeside : callAt (fuel + 1) (.node m) (besideWord after) (.ofList [v]) p t =
      callAt.insertBeside fuel m after (.ofList [v]) p t := by
    conv_lhs => unfold callAt
    dsimp only
    rw [Edit.node_known hc]
    cases after <;> rfl
  rw [hbeside]
  unfold callAt.insertBeside
  change (do
    let parent := (← Read.node m).parent
    if parent.isNone then throw .noAttribute
    let index ← Edit.lift (asInteger (← attr (.node m) "index_on_parent"))
    let i := if after then index + 1 + 0 else index - 0
    callAt fuel parent "insert" (.ofList [.int i,v]) : Edit Value) p t = _
  rw [Edit.node_known hc,hparent,hholder,if_neg (by simp)]
  dsimp only
  rw [Edit.read_known hindex]
  simp only [Int.add_zero,Int.sub_zero]

end Handing

section Beside

theorem Store.ViewAt.holder_member (hat : t.ViewAt top holder place w) (hdoc : t.Document top root height) :
    holder = .view top ∧ place = .root ∧ w = top ∨ ∃ n c f, holder = .node n ∧ place = .field f ∧ t.Member top n ∧
      t.nodes[n.index]? = some c ∧ c.stored? (.field f) = some (.view w) := by
  cases hat with
  | document => exact .inl ⟨rfl,rfl,rfl⟩
  | @field _ _ n c f _ rooted above cell stored =>
    cases rooted.symm.trans hdoc.rooted
    exact .inr ⟨n,c,f,rfl,rfl,(above.member hdoc).1 n rfl,cell,stored⟩

/-- A view takes what is put beside its items if it is the document or the value of its holder. -/
theorem Store.ViewAt.taker_iff (hat : t.ViewAt top holder place w) (hdoc : t.Document top root height)
    (hvc : t.views[w.index]? = some vc) (hitems : vc.items ≠ []) :
    t.taker holder = some w ↔ place = .root ∨ place = .field .value := by
  rcases hat.holder_member hdoc with ⟨rfl,rfl,rfl⟩ | ⟨n,c,f,rfl,rfl,hn,hc,hstored⟩
  · exact ⟨fun _ => .inl rfl,fun _ => rfl⟩
  obtain ⟨j,-,hs⟩ := (hdoc.member hn).stands hc
  constructor
  · intro htaker
    obtain ⟨-,hvalue⟩ := Option.ite_none_right_eq_some.mp htaker
    -- A list hangs at one field only, so the two fields are the same.
    obtain ⟨vc₁,l₁,_,h₁,ht₁,-,hl₁,-⟩ := hs.view ((Store.valueView_eq hc).mp hvalue)
    obtain ⟨vc₂,l₂,_,h₂,ht₂,-,hl₂,-⟩ := hs.view hstored
    cases h₁.symm.trans h₂
    cases ht₁.symm.trans ht₂
    have hplace := congrArg ListCell.place (Option.some.inj (hl₁.symm.trans hl₂))
    exact .inr (Option.some.inj hplace).symm
  · rintro (hplace | hplace)
    · cases hplace
    · cases hplace
      have hfilled : t.filled n = true := by
        unfold Store.filled
        rw [hc,Option.bind_some,hstored]
        dsimp only
        rw [hvc,Option.all_some]
        simpa using hitems
      exact Option.ite_none_right_eq_some.mpr ⟨hfilled,(Store.valueView_eq hc).mpr hstored⟩

theorem callAt_insert (hvc : t.views[w.index]? = some vc) :
    callAt (fuel + 1) (.view w) "insert" a p t = call (.view w) "insert" a p t :=
  (callAt_view hvc rfl).trans (call_view (by decide) hvc rfl).symm

theorem Store.Document.callAt_taker (hdoc : t.Document top root height) (hat : t.ViewAt top holder place w)
    (hb : truth holder t = .ok true) : callAt (fuel + 2) holder "insert" a p t =
      (t.taker holder).elim (.error .wrongSort t) (fun q => call (.view q) "insert" a p t) := by
  rcases hat.holder_member hdoc with ⟨rfl,rfl,rfl⟩ | ⟨n,c,f,rfl,rfl,hn,hc,hstored⟩
  · obtain ⟨rc,hrc,-⟩ := hdoc.view
    exact callAt_insert hrc
  have hdepth := hdoc.depth
  have hfilled : t.filled n = true := Except.ok.inj (((hdoc.member hn).truth (by omega)).symm.trans hb)
  rw [hdoc.insert_node hn hc,Store.taker,if_pos hfilled]
  cases hview : t.valueView n with
  | none => rfl
  | some q =>
    obtain ⟨j,-,hs⟩ := (hdoc.member hn).stands hc
    obtain ⟨qc,_,_,hqc,-⟩ := hs.view ((Store.valueView_eq hc).mp hview)
    exact callAt_insert hqc

/-- Putting a value before or after an item of a view in a new document is putting it into the view that takes it, at the
position of the item in its own view. That is the same view for the document and for views that are the value of their holder,
and for no others. If there is none, nothing is done. -/
theorem insert_beside (h : newDocument source p s = .ok (.view top) t) (hat : t.ViewAt top holder place w)
    (hvc : t.views[w.index]? = some vc) (hi : vc.items[i]? = some (.node m)) (hfirst : .node m ∉ vc.items.take i) :
    (∀ p' v after, call (.node m) (besideWord after) (.ofList [v]) p' t = (t.taker holder).elim (.error .wrongSort t)
      (fun q => call (.view q) "insert" (.ofList [.int (if after then i + 1 else i),v]) p' t)) ∧
    (t.taker holder = some w ↔ place = .root ∨ place = .field .value) := by
  obtain ⟨root,height,hdoc⟩ := newDocument_rooted h
  have hmem := List.mem_of_getElem? hi
  have hitems : ∀ x ∈ vc.items, ∃ m, x = .node m := fun x hx => (hat.hangs h hvc hx).imp (fun _ hm => hm.1)
  obtain ⟨_,heq,hm⟩ := hat.hangs h hvc hmem
  cases heq
  refine ⟨fun p' v after => ?_,hat.taker_iff hdoc hvc (List.ne_nil_of_mem hmem)⟩
  obtain ⟨b,hb,htaker⟩ : ∃ b, truth holder t = .ok b ∧ (b = false → t.taker holder = none) := by
    rcases hat.holder_member hdoc with ⟨rfl,rfl,rfl⟩ | ⟨n,c,f,rfl,rfl,hn,hc,-⟩
    · refine ⟨true,?_,nofun⟩
      change (Read.view w >>= _) t = _
      rw [Read.view_known hvc,List.isEmpty_eq_false_iff.mpr (List.ne_nil_of_mem hmem)]
      rfl
    · have hdepth := hdoc.depth
      exact ⟨t.filled n,(hdoc.member hn).truth (by omega),fun hempty => if_neg (by simp [hempty])⟩
  have hindex := hat.index hdoc hvc hitems hm hi hfirst hb
  obtain ⟨fuel,hfuel⟩ : ∃ fuel, 2 * t.depth = fuel + 3 := ⟨2 * t.depth - 3,by have := hdoc.depth; omega⟩
  obtain ⟨c,hc,hparent,-⟩ := hm
  have hholder : holder.isNone = false := by cases hat <;> rfl
  rw [call_eq (by cases after <;> decide),hfuel,callAt_beside hc hparent hholder hindex]
  cases b with
  | false =>
    rw [htaker rfl]
    rfl
  | true => exact hdoc.callAt_taker hat hb

/-- A parser that finds one import whatever the text. -/
def importParser : Parser := fun _ => .ok (.list [.record [("type",.text "from_import"),("first_formatting",.list []),
  ("value",.list [nameDatum "a"]),("second_formatting",.list []),
  ("third_formatting",.list []),("targets",.list [nameDatum "b"])]])

/-- What is put before the name that is imported becomes the first part of the module that it is imported from. -/
theorem insert_beside_import : ∃ top t w q m, newDocument "" importParser .empty = .ok (.view top) t ∧
    t.ViewAt top (.node ⟨0⟩) (.field .targets) w ∧ q ≠ w ∧
    (∃ c, t.nodes[0]? = some c ∧ c.stored? (.field .value) = some (.view q)) ∧
    call (.node m) "insert_before" (.ofList [.text "c"]) importParser t =
      call (.view q) "insert" (.ofList [.int 0,.text "c"]) importParser t := by
  have hall : (newDocument "").ensures importParser .empty (fun v t => decide (⟨0⟩ ∈ t.nodesOf v) &&
      (t.taker (.node ⟨0⟩)).isSome && (t.nodes[0]?).any (fun c => (c.stored? (.field .targets)).any (·.is (.view ⟨2⟩))) &&
      (t.views[2]?).any (fun vc => (vc.items[0]?).any (·.is (.node ⟨2⟩)))) = true := by decide +kernel
  obtain ⟨v,t,hmade,hall⟩ := Edit.ensures_iff.mp hall
  obtain ⟨top,root,height,rfl,hdoc⟩ := newDocument_document hmade
  simp only [Bool.and_eq_true,decide_eq_true_eq,Option.any_eq_true,Option.isSome_iff_exists,Value.is_view,Value.is_node,
    exists_eq_right] at hall
  obtain ⟨⟨⟨hrow,q,hq⟩,c,hc,hw⟩,vc,hvc,hx⟩ := hall
  obtain ⟨rc,hrc,-,htarget,-,-,hextra⟩ := hdoc.view
  obtain ⟨ms,hms,hl,-⟩ := hdoc.nodes
  obtain ⟨i,hi⟩ := List.getElem?_of_mem (hms ▸ hrow)
  have hitem : (ms.map Value.node)[i]? = some (.node ⟨0⟩) := by
    rw [List.getElem?_map,hi]
    rfl
  have hat : t.ViewAt top (.node ⟨0⟩) (.field .targets) ⟨2⟩ :=
    .field hdoc.rooted (.item .root hl hitem) hc hw
  obtain ⟨hcall,htaker⟩ := insert_beside hmade hat hvc hx (by simp)
  refine ⟨top,t,⟨2⟩,q,⟨2⟩,hmade,hat,fun heq => ?_,⟨c,hc,?_⟩,?_⟩
  · rcases htaker.mp (heq ▸ hq) with hplace | hplace <;> cases hplace
  · exact (Store.valueView_eq hc).mp (Option.ite_none_right_eq_some.mp hq).2
  · have hbefore := hcall importParser (.text "c") false
    rw [hq] at hbefore
    exact hbefore

end Beside

end CodeTree
