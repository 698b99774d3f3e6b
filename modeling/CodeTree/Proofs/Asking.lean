import CodeTree.Session.Call
import CodeTree.Proofs.Runs

/-! # Asking by name

Who answers when a node, a list or a view is asked something by name. A view hands on to its list what it does not know itself.
-/
namespace CodeTree
variable {p : Parser} {t : Store} {n : NodeId} {l : ListId} {w : ViewId} {c : NodeCell} {lc : ListCell} {vc : ViewCell}
  {name : String} {a : Arguments} {r : Edit Value} {v : Value} {fuel : Nat}

theorem call_eq (hname : name ≠ "") : call v name a p t = callAt (2 * t.depth) v name a p t := by
  unfold call
  rw [if_neg (by simpa using hname)]
  rfl

theorem call_at (hname : name ≠ "") : ∃ fuel, call v name a p t = callAt (fuel + 2) v name a p t :=
  ⟨2 * (t.nodes.size + t.lists.size + t.views.size),call_eq hname⟩

theorem callAt_list (hl : t.lists[l.index]? = some lc) (hnodes : lc.flavour = .nodes) (hr : nodesAnswer l name a = some r) :
    callAt (fuel + 1) (.list l) name a p t = r p t := by
  unfold callAt
  dsimp only
  rw [Edit.read_known (Read.list_ok.mpr hl)]
  simp only [hnodes,hr]

theorem call_list (hname : name ≠ "") (hl : t.lists[l.index]? = some lc) (hnodes : lc.flavour = .nodes)
    (hr : nodesAnswer l name a = some r) : call (.list l) name a p t = r p t := by
  obtain ⟨fuel,hcall⟩ := call_at hname
  exact hcall.trans (callAt_list hl hnodes hr)

theorem call_node (hname : name ≠ "") (hc : t.nodes[n.index]? = some c) (hr : nodeAnswer n name a = some r) :
    call (.node n) name a p t = r p t := by
  obtain ⟨fuel,hcall⟩ := call_at hname
  rw [hcall]
  unfold callAt
  dsimp only
  rw [Edit.node_known hc]
  simp only [hr]

theorem callAt_view (hw : t.views[w.index]? = some vc) (hr : viewAnswer w vc name a = some r) :
    callAt (fuel + 1) (.view w) name a p t = r p t := by
  unfold callAt
  dsimp only
  rw [Edit.view_known hw]
  simp only [hr]

theorem call_view (hname : name ≠ "") (hw : t.views[w.index]? = some vc) (hr : viewAnswer w vc name a = some r) :
    call (.view w) name a p t = r p t := by
  obtain ⟨fuel,hcall⟩ := call_at hname
  exact hcall.trans (callAt_view hw hr)

theorem call_behind (hname : name ≠ "") (hw : t.views[w.index]? = some vc) (htarget : vc.target = .list l)
    (hview : viewAnswer w vc name a = none) (hown : vc.own? (.ofWord name) = none) (hl : t.lists[l.index]? = some lc)
    (hnodes : lc.flavour = .nodes) (hr : nodesAnswer l name a = some r) : call (.view w) name a p t = r p t := by
  obtain ⟨fuel,hcall⟩ := call_at hname
  rw [hcall]
  unfold callAt
  dsimp only
  rw [Edit.view_known hw]
  simp only [hview,hown,htarget,Option.isSome_none,Bool.false_eq_true,if_false]
  exact callAt_list hl hnodes hr

end CodeTree
