import CodeTree.Proofs.LineRuns
import CodeTree.Proofs.ReadingNeighbours

/-! # The indentation of a node

The line end that indents a node is looked for backwards, from each node to what is read before it. There is no measure in the
tree for this: what is read before a node may be above it or deep inside an earlier one. But its first place in the reading order
of the document is earlier, so the search ends, and where a node is the first thing in its line it ends at once.
-/
namespace CodeTree
variable {p : Parser} {source : String} {s t u : Store} {w : ViewId} {n k e : NodeId} {root : ListId} {height : Nat}

section Order
variable {order : List NodeId} (hdoc : t.Document w root height) (hn : t.Member w n) (hend : t.isEnd n = false)
  (horder : dropRepeats .none ((t.metAll w height).map .node) = order.map .node)
include hdoc hn hend horder

/-- What is read before a node that is no line end is what stands before its first place in the reading order, unless the node
comes first in a line end. -/
theorem Store.Document.previousRendered_order : ∃ before after, order = before ++ n :: after ∧ n ∉ before ∧
    (CodeTree.previousRendered n t = .ok (before.getLast?.elim .none .node) ∨
      CodeTree.previousRendered n t = .ok .none ∧ ∃ m, t.isEnd m = true ∧ n ∈ t.below everywhere m) := by
  have htree := hdoc.member hn
  obtain ⟨i,rfl⟩ := htree.succ
  have hbegins : ∃ rest, t.met (i + 1) n = n :: rest := ⟨_,by rw [Store.met,hend]; rfl⟩
  obtain ⟨rest,hbegins⟩ := hbegins
  obtain ⟨up,hup⟩ := hn.ancestry
  obtain ⟨A,B,hall,hoff,-⟩ := hup.stretch hdoc
  have hA := (hoff n .self).1
  rw [hbegins,List.append_assoc] at hall
  obtain ⟨before,hdrop,hbefore,hlast⟩ := dropRepeats_before hA (rest ++ B) (by simp : Value.none ≠ .node n)
  obtain ⟨after,hafter,-⟩ := dropRepeats_nodes (rest ++ B) (.node n)
  refine ⟨before,after,?_,hbefore,?_⟩
  · refine List.map_injective_iff.mpr (fun _ _ => Value.node.inj) (horder.symm.trans ?_)
    rw [hall,List.cons_append,hdrop,hafter,List.map_append]
    rfl
  · rw [hlast]
    exact hdoc.previousRendered_first hn hbegins hall hA

theorem Store.Document.previousRendered_earlier (hk : CodeTree.previousRendered n t = .ok (.node k)) :
    order.idxOf k < order.idxOf n := by
  obtain ⟨before,after,rfl,hnew,hprevious⟩ := hdoc.previousRendered_order hn hend horder
  have hlast : k ∈ before := by
    rcases hprevious with hprevious | ⟨hnone,-⟩
    · rw [hk] at hprevious
      cases hlast : before.getLast? with
      | none => simp [hlast] at hprevious
      | some m =>
        rw [hlast] at hprevious
        cases hprevious
        exact List.mem_of_getLast? hlast
    · rw [hk] at hnone
      cases hnone
  rw [List.idxOf_append_of_mem hlast,List.idxOf_append_of_notMem hnew,List.idxOf_cons_self]
  have := List.idxOf_lt_length_of_mem hlast
  omega

end Order

theorem indentationNode_direct (hn : hasType (.node n) "endl" t = .ok false) (hprevious : previousRendered n t = .ok (.node e))
    (hend : hasType (.node e) "endl" t = .ok true) : indentationNode n t = .ok (.node e) := by
  obtain ⟨D,hD⟩ := t.depth_pos
  refine (Read.bind_known (a := t.depth) rfl).trans ?_
  rw [hD,indentationNodeAt,Read.bind_known hn]
  refine (Read.bind_known (a := .node e) ?_).trans ?_
  · simp [computed,Read.orElseMissing,hprevious]
  · rw [if_neg (by simp [Value.isNone]),Read.bind_known hend]
    rfl

/-- The line end that indents a node of a new document. The search for it ends with nothing, or with a line end whose first place
in the reading order is before that of the node. Where a node that is neither a line end nor in the formatting of one comes right
after a line end, it is this one, and the node has its indentation. -/
theorem indentation_node_earlier (h : newDocument source p s = .ok (.view w) t) (hgrows : t.Grows u) (hn : u.Member w n) :
    ∃ (order : List NodeId) (v : Value),
      call (.view w) "_generate_nodes_in_rendering_order" (.ofList []) p u = .ok (.list ⟨u.lists.size⟩)
        { u with lists := u.lists.push ⟨.stream,order.map .node,.none,none,[]⟩ } ∧
      call (.node n) "get_indentation_node" (.ofList []) p u = .ok v u ∧
      (v = .none ∨ ∃ e, v = .node e ∧ u.isEnd e = true ∧ order.idxOf e < order.idxOf n) ∧
      (u.isEnd n = false → (∀ m, u.isEnd m = true → n ∉ u.below everywhere m) → ∀ before e after,
        order = before ++ e :: n :: after → n ∉ before → u.isEnd e = true →
        v = .node e ∧ ∃ x, attr (.node n) "indentation" u = .ok x ∧ attr (.node e) "indent" u = .ok x) := by
  obtain ⟨root,height,hdoc⟩ := newDocument_rooted h
  have hdoc := hdoc.grows hgrows
  obtain ⟨order,horder,-⟩ := dropRepeats_nodes (u.metAll w height) .none
  have hreads := hdoc.readingOrder (v := .list root) rfl
  rw [horder] at hreads
  obtain ⟨v,hv,hcases⟩ := hdoc.indentationNode (R := fun k m => order.idxOf k < order.idxOf m) Nat.lt_trans
    (fun hm hend hk => hdoc.previousRendered_earlier hm hend horder hk) hn
  have htree := hdoc.member hn
  obtain ⟨i,rfl⟩ := htree.succ
  obtain ⟨c,hc⟩ := id htree
  refine ⟨order,v,hdoc.call_reading hreads,?_,?_,?_⟩
  · rw [call_node (by decide) hc.cell rfl]
    exact Edit.bind_ok.mpr ⟨(),u,rfl,Edit.read_ok.mpr ⟨hv,rfl⟩⟩
  · exact hcases.imp_right (fun ⟨e,he,_,hend,hlt⟩ => ⟨e,he,hend,hlt⟩)
  · rintro hend hplain before e after rfl hbefore hends
    obtain ⟨A,B,hsplit,hA,hprevious⟩ := hdoc.previousRendered_order hn hend horder
    have hne : n ≠ e := by
      rintro rfl
      rw [hend] at hends
      cases hends
    obtain rfl : before ++ [e] = A := eq_of_first (by simpa using hsplit) (by simp [hbefore,hne]) hA
    have hprevious := hprevious.resolve_right (fun ⟨_,m,hm,hbelow⟩ => hplain m hm hbelow)
    rw [List.getLast?_concat] at hprevious
    obtain ⟨_,hv',hmember⟩ := hdoc.previousRendered hn hend
    cases hprevious.symm.trans hv'
    obtain ⟨_,⟨⟩,he,-⟩ := hmember.resolve_left (by simp)
    have hetree := hdoc.member he
    obtain ⟨d,hd⟩ := id hetree
    have hnode := indentationNode_direct (hend ▸ htree.hasType_endl) hprevious (hends ▸ hetree.hasType_endl)
    rw [hd.isEnd,beq_iff_eq] at hends
    obtain ⟨x,hx,-⟩ := hd.bears .text .indent .always (by rw [hends]; decide)
    exact ⟨Except.ok.inj (hv.symm.trans hnode),x,
      attr_node_computed rfl ((Read.bind_known hnode).trans (look_stored hd.cell hx)),attr_stored hd.cell hx⟩

/-- Of three loops in a row the second one begins a line: the line end before it is the last thing in the first one. -/
theorem indentation_node_earlier_loops : ∃ w t, newDocument "" loopsParser .empty = .ok (.view w) t ∧ t.Member w ⟨6⟩ ∧
    call (.node ⟨6⟩) "get_indentation_node" (.ofList []) loopsParser t = .ok (.node ⟨5⟩) t ∧
    ∃ x, attr (.node ⟨6⟩) "indentation" t = .ok x ∧ attr (.node ⟨5⟩) "indent" t = .ok x := by
  have hall : (newDocument "").ensures loopsParser .empty (fun v t =>
      (readingOrder v t).toOption.any (fun flow => decide (flow.items.filterMap Value.node? =
        [⟨0⟩,⟨1⟩,⟨2⟩,⟨0⟩,⟨3⟩,⟨4⟩] ++ ⟨5⟩ :: ⟨6⟩ :: (flow.items.filterMap Value.node?).drop 8)) &&
      decide (⟨6⟩ ∈ t.nodesOf v) && t.isEnd ⟨5⟩ && !t.isEnd ⟨6⟩ &&
      (List.range t.nodes.size).all (fun i => !t.isEnd ⟨i⟩ || (t.below everywhere ⟨i⟩).isEmpty)) = true := by decide +kernel
  obtain ⟨v,t,h,hall⟩ := Edit.ensures_iff.mp hall
  obtain ⟨w,root,height,rfl,hdoc⟩ := newDocument_document h
  simp only [Bool.and_eq_true,decide_eq_true_eq,Bool.not_eq_true'] at hall
  obtain ⟨⟨⟨⟨hfirst,hroot⟩,hend⟩,hstarts⟩,hplain⟩ := hall
  have hmember : t.Member w ⟨6⟩ := ⟨⟨6⟩,hroot,.self⟩
  obtain ⟨order,v,hreads,hnode,-,hdirect⟩ := indentation_node_earlier h (.refl t) hmember
  have horder := hdoc.call_reading (p := loopsParser) (hdoc.readingOrder (v := .list root) rfl)
  rw [hreads] at horder
  simp only [EStateM.Result.ok.injEq,Store.mk.injEq,Array.push_eq_push,ListCell.mk.injEq,true_and,and_true] at horder
  rw [hdoc.readingOrder hdoc.underlying,← horder] at hfirst
  simp only [Except.toOption,Option.any_some,filterMap_node?,decide_eq_true_eq] at hfirst
  have hoff : ∀ m, t.isEnd m = true → ⟨6⟩ ∉ t.below everywhere m := by
    intro m hm hbelow
    have hlt : m.index < t.nodes.size := by
      by_contra hge
      rw [Store.isEnd,Array.getElem?_eq_none (not_lt.mp hge)] at hm
      cases hm
    have hm' := List.all_eq_true.mp hplain m.index (List.mem_range.mpr hlt)
    rw [hm,Bool.not_true,Bool.false_or,List.isEmpty_iff] at hm'
    rw [hm'] at hbelow
    cases hbelow
  obtain ⟨rfl,hindent⟩ := hdirect hstarts hoff _ _ _ hfirst (by decide) hend
  exact ⟨w,t,h,hmember,hnode,hindent⟩

end CodeTree
