import CodeTree.Proofs.Reading

/-! # Searching upwards

From a node a search goes up from holder to holder, and the first node that a query accepts is its answer. It ends at the
document, and before that at a holder that counts as false: one whose value is a view without items. Main statement: the
answer is the first accepted node among the holders that are met, and it is the nearest accepted one if and only if that one
is met.
-/
namespace CodeTree

/-- The nodes above a node of a document, the one that holds it first. -/
inductive Store.Ancestry (t : Store) (w : ViewId) : NodeId → List NodeId → Prop where
  | root {r : NodeId} (hangs : r ∈ t.nodesOf (.view w)) : Store.Ancestry t w r []
  | step {m k : NodeId} {up : List NodeId} (holder : Store.Ancestry t w m up) (hangs : k ∈ t.below everywhere m) :
      Store.Ancestry t w k (m :: up)

section Chains
variable {t : Store} {w : ViewId} {root : ListId} {height : Nat} {n m : NodeId} {up : List NodeId}

theorem Store.Hangs.parent {x y : Value} {a b : Attr} (h : t.Hangs x a n) (h' : t.Hangs y b n) : x = y := by
  obtain ⟨c,hc,rfl,-⟩ := h
  obtain ⟨c',hc',rfl,-⟩ := h'
  cases hc.symm.trans hc'
  rfl

theorem Store.Member.ancestry (h : t.Member w n) : ∃ up, t.Ancestry w n up := by
  obtain ⟨r,hr,hd⟩ := h
  induction hd with
  | self => exact ⟨[],.root hr⟩
  | step _ hangs ih =>
    obtain ⟨up,hup⟩ := ih
    exact ⟨_,.step hup hangs⟩

theorem Store.Ancestry.member (h : t.Ancestry w n up) : t.Member w n := by
  induction h with
  | root hangs => exact ⟨_,hangs,.self⟩
  | step _ hangs ih =>
    obtain ⟨r,hr,hd⟩ := ih
    exact ⟨r,hr,.step hd hangs⟩

theorem Store.Ancestry.of_mem (h : t.Ancestry w n up) (hm : m ∈ up) : t.Member w m ∧ t.Descends everywhere m n := by
  induction h with
  | root => cases hm
  | step holder hangs ih =>
    rcases List.mem_cons.mp hm with rfl | hm
    · exact ⟨holder.member,.step .self hangs⟩
    · exact ⟨(ih hm).1,.step (ih hm).2 hangs⟩

/-- Each step up takes one from the height that is left. -/
theorem Store.Ancestry.tree (h : t.Ancestry w n up) (hdoc : t.Document w root height) :
    ∃ i, i + up.length = height ∧ t.Tree i n := by
  induction h with
  | root hangs => exact ⟨height,rfl,hdoc.member ⟨_,hangs,.self⟩⟩
  | step _ hangs ih =>
    obtain ⟨i,hi,htree⟩ := ih
    obtain ⟨j,rfl⟩ := htree.succ
    exact ⟨j,by rw [List.length_cons]; omega,(htree.below hangs).1⟩

theorem Store.Ancestry.unique {up' : List NodeId} (hdoc : t.Document w root height) (h : t.Ancestry w n up)
    (h' : t.Ancestry w n up') : up' = up := by
  have hroot : ∀ {r}, r ∈ t.nodesOf (.view w) → t.Hangs (.view w) .root r := by
    obtain ⟨ms,hms,-,hrow⟩ := hdoc.nodes
    exact fun hr => hrow.hang _ (hms ▸ hr)
  have hnode : ∀ {m k up}, t.Ancestry w m up → k ∈ t.below everywhere m → ∃ f, t.Hangs (.node m) (.field f) k := by
    intro m k up hm hk
    obtain ⟨i,-,htree⟩ := hm.tree hdoc
    obtain ⟨j,rfl⟩ := htree.succ
    exact (htree.below hk).2
  induction h generalizing up' with
  | root hangs =>
    cases h' with
    | root => rfl
    | step holder' hangs' =>
      obtain ⟨f,hf⟩ := hnode holder' hangs'
      cases hf.parent (hroot hangs)
  | step holder hangs ih =>
    obtain ⟨f,hf⟩ := hnode holder hangs
    cases h' with
    | root hangs' => cases hf.parent (hroot hangs')
    | step holder' hangs' =>
      obtain ⟨f',hf'⟩ := hnode holder' hangs'
      cases hf.parent hf'
      rw [ih holder']

end Chains

section Climbing
variable {p : Parser} {t : Store} {w : ViewId} {root : ListId} {height fuel : Nat} {n m : NodeId} {up : List NodeId}
  {q : Query} {holds : NodeId → Bool}

theorem Store.Hangs.above {parent : Value} {place : Attr} (h : t.Hangs parent place n) :
    parentOf (.node n) t = .ok parent ∧ placeOf (.node n) t = .ok (some place) := by
  obtain ⟨c,hc,rfl,hplace⟩ := h
  constructor
  · exact Read.node_known hc
  · exact (Read.node_known hc).trans (congrArg Except.ok hplace)

theorem findAboveAt_step {f : Field} (hangs : t.Hangs (.node m) (.field f) n)
    (htruth : truth (.node m) t = .ok (t.filled m)) (hq : q.accepts m p t = .ok (holds m) t) :
    findAboveAt q (fuel + 1) (.node n) p t = if t.filled m then
      (if holds m then .ok (.node m) t else findAboveAt q fuel (.node m) p t) else .ok .none t := by
  rw [findAboveAt,Edit.read_known hangs.above.1,Edit.read_known htruth,Edit.read_known hangs.above.2]
  cases t.filled m with
  | false => rfl
  | true =>
    rw [if_neg (by simp [Attr.root]),if_pos rfl]
    dsimp only
    rw [Edit.run_bind,hq]
    cases holds m <;> rfl

theorem findAboveAt_root (hdoc : t.Document w root height) (hn : n ∈ t.nodesOf (.view w)) :
    findAboveAt q (fuel + 1) (.node n) p t = .ok .none t := by
  obtain ⟨ms,hms,-,hrow⟩ := hdoc.nodes
  obtain ⟨vc,hw,-⟩ := hdoc.view
  have hangs := hrow.hang n (hms ▸ hn)
  have htruth : truth (.view w) t = .ok (!vc.items.isEmpty) := Read.view_known hw
  rw [findAboveAt,Edit.read_known hangs.above.1,Edit.read_known htruth,Edit.read_known hangs.above.2,if_pos (by simp)]
  rfl

/-- The climb meets the holders that count as true, up to the first that does not, and stops at the first it accepts. -/
theorem Store.Ancestry.findAbove (h : t.Ancestry w n up) (hdoc : t.Document w root height) (hfuel : up.length < fuel)
    (hq : ∀ m ∈ up, q.accepts m p t = .ok (holds m) t) :
    findAboveAt q fuel (.node n) p t = .ok (((up.takeWhile t.filled).find? holds).elim .none .node) t := by
  induction h generalizing fuel with
  | root hangs =>
    obtain _ | fuel := fuel
    · omega
    exact findAboveAt_root hdoc hangs
  | @step m k up holder hangs ih =>
    obtain _ | fuel := fuel
    · omega
    obtain ⟨i,hi,htree⟩ := holder.tree hdoc
    obtain ⟨j,rfl⟩ := htree.succ
    obtain ⟨-,f,hf⟩ := htree.below hangs
    have hdepth := hdoc.depth
    rw [findAboveAt_step hf (htree.truth (by omega)) (hq m (.head _)),List.takeWhile_cons]
    cases t.filled m with
    | false => rfl
    | true =>
      rw [if_pos rfl,if_pos rfl,List.find?_cons]
      cases holds m with
      | true => rfl
      | false => exact ih (by rw [List.length_cons] at hfuel; omega) (fun m hm => hq m (.tail _ hm))

/-- Searching upwards from a node of a new document for a node that a query accepts, when the query has an answer for every
node of the document and changes nothing. The nodes above are those that hold the node, each held by the next; met are those
before the first that counts as false, and the answer is the first that is accepted of those met. It is the nearest accepted
one of all above, or nothing if none is accepted, if and only if no node up to the nearest accepted one counts as false. -/
theorem parent_find_met {source : String} {s u : Store} {a : Arguments} (h : newDocument source p s = .ok (.view w) t)
    (hgrows : t.Grows u) (hn : u.Member w n) (hquery : a.plainQuery = .ok q)
    (hq : ∀ m, u.Member w m → q.accepts m p u = .ok (holds m) u) :
    ∃ up met : List NodeId, u.Ancestry w n up ∧ met = up.takeWhile u.filled ∧
      call (.node n) "parent_find" a p u = .ok ((met.find? holds).elim .none .node) u ∧
      (met.find? holds = up.find? holds ↔ ∀ m ∈ up.find? holds, m ∈ met) := by
  obtain ⟨root,height,hdoc⟩ := newDocument_rooted h
  have hdoc := hdoc.grows hgrows
  obtain ⟨up,hup⟩ := hn.ancestry
  obtain ⟨i,hi,htree⟩ := hup.tree hdoc
  have hdepth := hdoc.depth
  have hfuel : up.length < 2 * u.depth := by omega
  have hfound := hup.findAbove hdoc hfuel (fun m hm => hq m (hup.of_mem hm).1)
  obtain ⟨j,c,rfl,hc⟩ := htree.opens
  refine ⟨up,_,hup,rfl,?_,?_⟩
  · rw [call_node (by decide) hc.cell rfl,Edit.run_bind,Edit.lift_ok.mpr ⟨hquery,rfl⟩]
    exact hfound
  · constructor
    · intro heq m hm
      exact List.mem_of_find?_eq_some (heq.trans hm)
    · intro hmet
      cases hfind : up.find? holds with
      | none => exact List.find?_eq_none.mpr (fun m hm => List.find?_eq_none.mp hfind m ((List.takeWhile_sublist _).subset hm))
      | some m =>
        have hsome := List.find?_isSome.mpr ⟨m,hmet m hfind,List.find?_some hfind⟩
        obtain ⟨k,hk⟩ := Option.isSome_iff_exists.mp hsome
        have hsplit := List.takeWhile_append_dropWhile (p := u.filled) (l := up)
        rw [← hsplit,List.find?_append,hk] at hfind
        exact hk.trans hfind

/-- The branch behind the loop has no lines, so the space in it does not see the branch nor the loop above it. -/
theorem parent_find_met_branch : ∃ w t, newDocument "" bareBranchParser .empty = .ok (.view w) t ∧
    t.Ancestry w ⟨4⟩ [⟨3⟩,⟨0⟩] ∧ t.Ancestry w ⟨2⟩ [⟨0⟩] ∧
    call (.node ⟨4⟩) "parent_find" (.ofList [everyNode.identifier]) bareBranchParser t = .ok .none t ∧
    call (.node ⟨2⟩) "parent_find" (.ofList [everyNode.identifier]) bareBranchParser t = .ok (.node ⟨0⟩) t := by
  have hruns : (newDocument "").ensures bareBranchParser .empty (fun v t => ⟨0⟩ ∈ t.nodesOf v ∧ ⟨2⟩ ∈ t.below everywhere ⟨0⟩ ∧
      ⟨3⟩ ∈ t.below everywhere ⟨0⟩ ∧ ⟨4⟩ ∈ t.below everywhere ⟨3⟩ ∧ t.filled ⟨3⟩ = false ∧ t.filled ⟨0⟩ = true) = true := by
    decide +kernel
  obtain ⟨v,t,hdoc,hchains⟩ := Edit.ensures_iff.mp hruns
  obtain ⟨w,root,height,rfl,htrees⟩ := newDocument_document hdoc
  obtain ⟨h0,h2,h3,h4,hbare,hfull⟩ := of_decide_eq_true hchains
  have hup2 : t.Ancestry w ⟨2⟩ [⟨0⟩] := .step (.root h0) h2
  have hup4 : t.Ancestry w ⟨4⟩ [⟨3⟩,⟨0⟩] := .step (.step (.root h0) h3) h4
  have hholds : ∀ m, t.Member w m → everyNode.accepts m bareBranchParser t = .ok ((fun _ => true) m) t :=
    fun m hm => everyNode_accepts (htrees.member hm)
  obtain ⟨_,_,hup,rfl,hcall4,-⟩ := parent_find_met (a := .ofList [everyNode.identifier]) (q := everyNode) hdoc (.refl t)
    hup4.member rfl hholds
  cases hup4.unique htrees hup
  obtain ⟨_,_,hup,rfl,hcall2,-⟩ := parent_find_met (a := .ofList [everyNode.identifier]) (q := everyNode) hdoc (.refl t)
    hup2.member rfl hholds
  cases hup2.unique htrees hup
  rw [List.takeWhile_cons_of_neg (by rw [hbare]; exact Bool.false_ne_true)] at hcall4
  rw [List.takeWhile_cons_of_pos hfull] at hcall2
  exact ⟨w,t,hdoc,hup4,hup2,hcall4,hcall2⟩

end Climbing

end CodeTree
