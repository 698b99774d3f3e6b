import CodeTree.Proofs.Ancestors
import CodeTree.Proofs.DocumentBoxes
import CodeTree.Proofs.LineShifts

/-! # Neighbours in the reading order

What is read before a node, and after it, is looked for in what holds the node, then in what holds that one, and so on. What
reading meets in a node is one stretch of what it meets in the node's holder, and nothing else of that lies in the node. Main
statement: for a node that holds no nodes the two neighbours are those that it has where the whole document is read.
-/
namespace CodeTree

section Stretches
variable {t : Store} {i j : Nat} {n k x : NodeId} {c : NodeCell}

theorem Store.Tree.met_mono (h : t.Tree i n) (hij : i ≤ j) : t.met j n = t.met i n := by
  have hi := h.meetings_met (Nat.lt_succ_of_le hij)
  have hj := (h.mono hij).meetings_met (Nat.lt_succ_self j)
  exact List.map_injective_iff.mpr (fun _ _ => Value.node.inj) (congrArg Flow.items (hj.symm.trans hi))

theorem Store.Tree.met_descends (h : t.Tree i n) (hx : x ∈ t.met i n) : t.Descends everywhere n x :=
  h.mem_preorder.mp (h.met_reads.within x hx)

theorem Store.Stands.mem_metIn {P : NodeId → Prop} (hc : t.Stands P n c) {slots : List Slot} (hslots : slots ⊆ c.kind.layout)
    (hx : x ∈ slots.flatMap (t.metIn (t.met i) n c)) :
    x = n ∨ ∃ m ∈ slots.flatMap (t.hung everywhere c), x ∈ t.met i m := by
  obtain ⟨slot,hslot,hx⟩ := List.mem_flatMap.mp hx
  rcases hc.metIn_cases (hslots hslot) (t.met i) with hmet | ⟨hmet,-⟩
  · rw [hmet,List.mem_flatMap] at hx
    obtain ⟨m,hm,hx⟩ := hx
    exact .inr ⟨m,List.mem_flatMap.mpr ⟨slot,hslot,hm⟩,hx⟩
  · rw [hmet] at hx
    exact .inl (List.mem_singleton.mp hx)

/-- What is met in a node that hangs at another one is one stretch of what is met there, and no more of that lies in the node. -/
theorem Store.Tree.met_around (h : t.Tree (i + 1) n) (hk : k ∈ t.below everywhere n) :
    ∃ A B, t.met (i + 1) n = A ++ t.met i k ++ B ∧ (∀ x ∈ A ++ B, ¬ t.Descends everywhere k x) ∧
      (t.isEnd n = false → A ≠ []) := by
  have htrees := fun {m} (hm : m ∈ t.below everywhere n) => (h.below hm).1
  obtain ⟨c,hc⟩ := id h
  obtain ⟨slot,hslot,hhung⟩ := List.mem_flatMap.mp (hc.below_eq ▸ hk)
  obtain ⟨before,after,hlayout⟩ := List.append_of_mem hslot
  obtain ⟨left,right,hsplit⟩ := List.append_of_mem hhung
  have hbelow : t.below everywhere n = (before.flatMap (t.hung everywhere c) ++ left) ++
      k :: (right ++ after.flatMap (t.hung everywhere c)) := by
    rw [hc.below_eq,hlayout,List.flatMap_append,List.flatMap_cons,hsplit]
    simp only [List.append_assoc,List.cons_append]
  have hothers : ∀ m, m ∈ (before.flatMap (t.hung everywhere c) ++ left) ++ (right ++ after.flatMap (t.hung everywhere c)) →
      m ∈ t.below everywhere n ∧ m ≠ k := by
    intro m hm
    have hnodup := hc.nodup
    rw [hbelow,List.nodup_middle,List.nodup_cons] at hnodup
    refine ⟨?_,fun hmk => hnodup.1 (hmk ▸ hm)⟩
    rw [hbelow]
    rcases List.mem_append.mp hm with hm | hm
    · exact List.mem_append_left _ hm
    · exact List.mem_append_right _ (List.mem_cons_of_mem _ hm)
  have hapart : ∀ x, (x = n ∨ ∃ m ∈ (before.flatMap (t.hung everywhere c) ++ left) ++
      (right ++ after.flatMap (t.hung everywhere c)), x ∈ t.met i m) → ¬ t.Descends everywhere k x := by
    rintro x (rfl | ⟨m,hm,hx⟩) hd
    · exact h.not_above hk hd
    · obtain ⟨hm,hne⟩ := hothers m hm
      exact hne (h.below_unique hm hk ((htrees hm).met_descends hx) hd)
  have hmet : t.metIn (t.met i) n c slot = left.flatMap (t.met i) ++ (t.met i k ++ right.flatMap (t.met i)) := by
    rcases hc.metIn_cases hslot (t.met i) with hmet | ⟨-,hnone⟩
    · rw [hmet,hsplit,List.flatMap_append,List.flatMap_cons]
    · rw [hnone] at hhung
      cases hhung
  have hsub : before ⊆ c.kind.layout ∧ after ⊆ c.kind.layout := by
    rw [hlayout]
    exact ⟨List.subset_append_left _ _,fun a ha => List.mem_append_right _ (List.mem_cons_of_mem _ ha)⟩
  refine ⟨(if t.isEnd n then [] else [n]) ++ (before.flatMap (t.metIn (t.met i) n c) ++ left.flatMap (t.met i)),
    right.flatMap (t.met i) ++ after.flatMap (t.metIn (t.met i) n c),?_,fun x hx => hapart x ?_,?_⟩
  · rw [hc.met_eq,hlayout,List.flatMap_append,List.flatMap_cons,hmet]
    simp only [List.append_assoc]
  · simp only [List.mem_append] at hx
    rcases hx with (hx | hx | hx) | hx | hx
    · split at hx
      · cases hx
      · exact .inl (List.mem_singleton.mp hx)
    · refine (hc.mem_metIn hsub.1 hx).imp_right (fun ⟨m,hm,hx⟩ => ⟨m,?_,hx⟩)
      simp [hm]
    · obtain ⟨m,hm,hx⟩ := List.mem_flatMap.mp hx
      exact .inr ⟨m,by simp [hm],hx⟩
    · obtain ⟨m,hm,hx⟩ := List.mem_flatMap.mp hx
      exact .inr ⟨m,by simp [hm],hx⟩
    · refine (hc.mem_metIn hsub.2 hx).imp_right (fun ⟨m,hm,hx⟩ => ⟨m,?_,hx⟩)
      simp [hm]
  · intro hend
    rw [hend]
    exact List.cons_ne_nil _ _

theorem Store.Tree.met_leaf (h : t.Tree i n) (hleaf : t.below everywhere n = [])
    (hend : ∀ c, t.nodes[n.index]? = some c → c.kind = .endl → ∃ x, c.stored? (.field .indent) = some (.text x)) :
    ∃ d, t.met i n = List.replicate (d + 1) n := by
  obtain ⟨j,rfl⟩ := h.succ
  have honly : ∀ x ∈ t.met (j + 1) n, x = n := by
    intro x hx
    have hx := h.met_reads.within x hx
    rw [Store.preorder,hleaf] at hx
    exact List.mem_singleton.mp hx
  have hmem : n ∈ t.met (j + 1) n := by
    cases hisend : t.isEnd n with
    | false => exact h.met_reads.all n List.mem_cons_self hisend
    | true =>
      obtain ⟨c,hc⟩ := h
      have hkind : c.kind = .endl := by simpa [hc.isEnd] using hisend
      obtain ⟨x,hx⟩ := hend c hc.cell hkind
      rw [hc.met_eq,List.mem_append,List.mem_flatMap]
      refine .inr ⟨.field .text .indent .always,?_,?_⟩
      · rw [hkind]
        decide
      · simp only [Store.metIn,hx,List.mem_singleton]
  obtain ⟨d,hd⟩ : ∃ d, (t.met (j + 1) n).length = d + 1 :=
    ⟨_,(Nat.succ_pred_eq_of_pos (List.length_pos_of_mem hmem)).symm⟩
  exact ⟨d,List.eq_replicate_iff.mpr ⟨hd,honly⟩⟩

end Stretches

section Orders
variable {t : Store} {n x : NodeId} {A B : List NodeId} {d : Nat}

theorem dropRepeats_head (hB : x ∉ B) : ∃ B' : List NodeId, dropRepeats (.node x) (B.map .node) = B'.map .node ∧ B' ⊆ B ∧
    B'.head? = B.head? := by
  cases B with
  | nil => exact ⟨[],rfl,List.Subset.refl _,rfl⟩
  | cons b B =>
    obtain ⟨B',hdrop,hsub⟩ := dropRepeats_nodes B (.node b)
    have hne : b ≠ x := fun h => hB (h ▸ List.mem_cons_self)
    refine ⟨b :: B',?_,List.cons_subset_cons b hsub,rfl⟩
    rw [List.map_cons,dropRepeats,if_neg (by simpa [Value.is] using hne),hdrop,List.map_cons]

theorem dropRepeats_replicate (x : NodeId) (d : Nat) (B : List NodeId) :
    dropRepeats (.node x) ((List.replicate d x ++ B).map .node) = dropRepeats (.node x) (B.map .node) := by
  induction d with
  | zero => rfl
  | succ d ih =>
    rw [List.replicate_succ,List.cons_append,List.map_cons,dropRepeats,if_pos (by simp [Value.is]),ih]

theorem getLast_cons_node (a : NodeId) (A : List NodeId) (previous : Value) :
    (a :: A).getLast?.elim previous .node = A.getLast?.elim (.node a) .node := by
  rw [List.getLast?_cons]
  cases A.getLast? <;> rfl

/-- What is read before the first meeting with a node does not depend on repetitions. -/
theorem dropRepeats_before (hA : x ∉ A) (B : List NodeId) {previous : Value} (hprevious : previous ≠ .node x) :
    ∃ A' : List NodeId, dropRepeats previous ((A ++ x :: B).map .node) =
        A'.map .node ++ .node x :: dropRepeats (.node x) (B.map .node) ∧
      x ∉ A' ∧ A'.getLast?.elim previous .node = A.getLast?.elim previous .node := by
  induction A generalizing previous with
  | nil =>
    have hne : (Value.node x).is previous = false := by
      cases previous <;> simp [Value.is] at hprevious ⊢
      exact fun h => hprevious h.symm
    refine ⟨[],?_,List.not_mem_nil,rfl⟩
    rw [List.nil_append,List.map_cons,dropRepeats,hne,if_neg Bool.false_ne_true]
    rfl
  | cons a A ih =>
    have hne : a ≠ x := fun h => hA (h ▸ List.mem_cons_self)
    have hA := fun h => hA (List.mem_cons_of_mem a h)
    obtain ⟨A',hdrop,hA',hlast⟩ := ih hA (fun h : Value.node a = .node x => hne (Value.node.inj h))
    rw [List.cons_append,List.map_cons,dropRepeats,getLast_cons_node]
    split
    · next hsame =>
      obtain rfl : previous = .node a := by
        cases previous <;> simp [Value.is] at hsame
        rw [hsame]
      exact ⟨A',hdrop,hA',hlast⟩
    · refine ⟨a :: A',by rw [hdrop]; rfl,?_,?_⟩
      · exact fun h => (List.mem_cons.mp h).elim (fun h => hne h.symm) hA'
      · rw [← hlast,getLast_cons_node]

theorem dropRepeats_around (hA : x ∉ A) (hB : x ∉ B) :
    ∃ A' B' : List NodeId, dropRepeats .none ((A ++ List.replicate (d + 1) x ++ B).map .node) = (A' ++ x :: B').map .node ∧
      x ∉ A' ∧ x ∉ B' ∧ A'.getLast?.elim Value.none .node = A.getLast?.elim .none .node ∧ B'.head? = B.head? := by
  obtain ⟨A',hdrop,hA',hlast⟩ := dropRepeats_before hA (List.replicate d x ++ B) (by simp : Value.none ≠ .node x)
  obtain ⟨B',hrest,hsub,hhead⟩ := dropRepeats_head hB
  refine ⟨A',B',?_,hA',fun h => hB (hsub h),hlast,hhead⟩
  rw [List.append_assoc,List.replicate_succ,List.cons_append,hdrop,dropRepeats_replicate,hrest,List.map_append]
  rfl

theorem itemBeforeSome_absent (hA : x ∉ A) (previous : Value) : itemBeforeSome (.node x) previous (A.map .node) = none := by
  induction A generalizing previous with
  | nil => rfl
  | cons a A ih =>
    have hne : a ≠ x := fun h => hA (h ▸ List.mem_cons_self)
    rw [List.map_cons,itemBeforeSome,if_neg (by simpa [Value.is] using fun h => absurd h hne)]
    exact ih (fun h => hA (List.mem_cons_of_mem a h)) _

theorem itemBeforeSome_last (hA : x ∉ A) (hB : x ∉ B) (previous : Value) :
    itemBeforeSome (.node x) previous ((A ++ x :: B).map .node) =
      if (A.getLast?.elim previous .node).isNone then none else some (A.getLast?.elim previous .node) := by
  induction A generalizing previous with
  | nil =>
    rw [List.nil_append,List.map_cons,itemBeforeSome,itemBeforeSome_absent hB]
    cases previous <;> simp [Value.is,Value.isNone]
  | cons a A ih =>
    have hne : a ≠ x := fun h => hA (h ▸ List.mem_cons_self)
    rw [List.cons_append,List.map_cons,itemBeforeSome,if_neg (by simpa [Value.is] using fun h => absurd h hne),getLast_cons_node]
    exact ih (fun h => hA (List.mem_cons_of_mem a h)) _

/-- Where a node is met in one stretch, the search for what is read after it ends with what follows the stretch, or goes on
above. -/
theorem nextFrom_around {target : Value} {fuel : Nat} (htarget : target.isNone = false)
    (horder : readingOrder target t = .ok ⟨dropRepeats .none ((A ++ List.replicate (d + 1) x ++ B).map .node),none⟩)
    (hA : x ∉ A) (hB : x ∉ B) : nextFrom (.node x) (fuel + 1) target t =
      B.head?.elim ((do nextFrom (.node x) fuel (← parentOf target) : Read Value) t) (fun y => .ok (.node y)) := by
  obtain ⟨A',B',hdrop,hA',hB',-,hhead⟩ := dropRepeats_around (d := d) hA hB
  have hreverse : ((A' ++ x :: B').map Value.node).reverse = (B'.reverse ++ x :: A'.reverse).map .node := by
    rw [← List.map_reverse,List.reverse_append,List.reverse_cons,List.append_assoc]
    rfl
  rw [nextFrom,htarget,if_neg Bool.false_ne_true,Read.bind_known horder,hdrop]
  refine (Read.bind_known (a := (A' ++ x :: B').map .node) rfl).trans ?_
  rw [hreverse,itemBeforeSome_last (by simpa using hB') (by simpa using hA'),List.getLast?_reverse,hhead]
  cases B.head? <;> rfl

end Orders

section Documents
variable {t : Store} {w : ViewId} {root : ListId} {height d : Nat} {n x : NodeId} {up A B : List NodeId}

/-- The nodes that reading meets in a document. -/
def Store.metAll (t : Store) (w : ViewId) (height : Nat) : List NodeId := (t.nodesOf (.view w)).flatMap (t.met height)

theorem Store.Document.readingOrder {v : Value} (hdoc : t.Document w root height) (hv : CodeTree.underlying v t = .ok (.list root)) :
    CodeTree.readingOrder v t = .ok ⟨dropRepeats .none ((t.metAll w height).map .node),none⟩ := by
  obtain ⟨rows,hrows,hl,hsiblings⟩ := hdoc.nodes
  have hdepth := hdoc.depth
  unfold Store.metAll
  rw [hrows]
  exact readingOrder_list hv hl rfl
    (Flow.flatMap_nodes (fun m hm => (hsiblings.each m hm).meetings_met (by omega)))

theorem Store.Document.readingOrder_below (hdoc : t.Document w root height) (hn : t.Member w n) :
    CodeTree.readingOrder (.node n) t = .ok ⟨dropRepeats .none ((t.met height n).map .node),none⟩ := by
  have hdepth := hdoc.depth
  exact readingOrder_node ((hdoc.member hn).meetings_met (by omega))

/-- What is met in a node of a document is one stretch of what is met in all, and nothing else of that lies in the node. The
search for what is read after the last node in the stretch goes on behind it. -/
theorem Store.Ancestry.stretch (h : t.Ancestry w n up) (hdoc : t.Document w root height) :
    ∃ A' B', t.metAll w height = A' ++ t.met height n ++ B' ∧ (∀ x, t.Descends everywhere n x → x ∉ A' ∧ x ∉ B') ∧
      ∀ {x A d fuel}, t.met height n = A ++ List.replicate (d + 1) x → x ∉ A → up.length + 1 < fuel →
        (do nextFrom (.node x) fuel (← parentOf (.node n)) : Read Value) t = .ok (B'.head?.elim .none .node) := by
  have hlies : ∀ {m : NodeId} {i A d x}, t.Tree i m → t.met i m = A ++ List.replicate (d + 1) x → t.Descends everywhere m x :=
    fun hm hmet => hm.met_descends (by rw [hmet]; simp)
  induction h with
  | @root r hangs =>
    obtain ⟨rows,hrows,-,hsiblings⟩ := hdoc.nodes
    obtain ⟨before,after,hsplit⟩ := List.append_of_mem (hrows ▸ hangs)
    have hall : t.metAll w height = before.flatMap (t.met height) ++ t.met height r ++ after.flatMap (t.met height) := by
      unfold Store.metAll
      rw [hrows,hsplit,List.flatMap_append,List.flatMap_cons,List.append_assoc]
    have hread : ∀ {x rs}, rs ⊆ rows → x ∈ rs.flatMap (t.met height) → x ∈ rs.flatMap (t.preorder everywhere height) := by
      intro x rs hrs hx
      obtain ⟨r,hr,hx⟩ := List.mem_flatMap.mp hx
      exact List.mem_flatMap.mpr ⟨r,hr,(hsiblings.each r (hrs hr)).met_reads.within x hx⟩
    have hnodup := hdoc.reading_nodup
    unfold Store.reading at hnodup
    rw [hrows,hsplit,List.flatMap_append,List.flatMap_cons,List.nodup_append'] at hnodup
    obtain ⟨-,hafter,hbefore⟩ := hnodup
    have htree := hdoc.member ⟨r,hangs,.self⟩
    have hapart : ∀ x, t.Descends everywhere r x → x ∉ before.flatMap (t.met height) ∧ x ∉ after.flatMap (t.met height) := by
      intro x hx
      have hown := htree.mem_preorder.mpr hx
      exact ⟨fun h => hbefore (hread (by rw [hsplit]; exact List.subset_append_left _ _) h) (List.mem_append_left _ hown),
        fun h => (List.nodup_append'.mp hafter).2.2 hown (hread (by rw [hsplit]; simp) h)⟩
    refine ⟨_,_,hall,hapart,fun {x A d fuel} hmet hA hfuel => ?_⟩
    obtain ⟨fuel,rfl⟩ : ∃ j, fuel = j + 2 := ⟨fuel - 2,by rw [List.length_nil] at hfuel; omega⟩
    obtain ⟨hA',hB'⟩ := hapart x (hlies htree hmet)
    have horder := hdoc.readingOrder hdoc.underlying
    rw [hall,hmet,← List.append_assoc] at horder
    rw [Read.bind_known (hsiblings.hang r (hrows ▸ hangs)).above.1,nextFrom_around rfl horder (by simp [hA',hA]) hB',
      Read.bind_known hdoc.parentOf]
    cases (after.flatMap (t.met height)).head? <;> rfl
  | @step m k up holder hangs ih =>
    obtain ⟨i,hi,htree⟩ := holder.tree hdoc
    obtain ⟨j,rfl⟩ := htree.succ
    obtain ⟨below,f,hf⟩ := htree.below hangs
    obtain ⟨A₁,B₁,haround,hapart,-⟩ := htree.met_around hangs
    have hk : t.met height k = t.met j k := below.met_mono (by omega)
    have hm : t.met height m = A₁ ++ t.met height k ++ B₁ := by rw [htree.met_mono (by omega),haround,hk]
    obtain ⟨A',B',hall,hoff,hnext⟩ := ih
    have hoff : ∀ x, t.Descends everywhere k x → (x ∉ A' ∧ x ∉ A₁) ∧ x ∉ B₁ ∧ x ∉ B' := by
      intro x hx
      have hin := hapart x
      simp only [List.mem_append] at hin
      obtain ⟨hA',hB'⟩ := hoff x ((Store.Descends.step .self hangs).trans hx)
      exact ⟨⟨hA',fun h => hin (.inl h) hx⟩,fun h => hin (.inr h) hx,hB'⟩
    refine ⟨A' ++ A₁,B₁ ++ B',?_,fun x hx => by simpa [not_or] using hoff x hx,fun {x A d fuel} hmet hA hfuel => ?_⟩
    · rw [hall,hm]
      simp only [List.append_assoc]
    · obtain _ | fuel := fuel
      · omega
      obtain ⟨⟨-,hA₁⟩,hB₁,-⟩ := hoff x (hlies below (hk ▸ hmet))
      have horder := hdoc.readingOrder_below holder.member
      rw [hm,hmet,← List.append_assoc] at horder
      rw [Read.bind_known hf.above.1,nextFrom_around rfl horder (by simp [hA₁,hA]) hB₁]
      cases B₁ with
      | nil =>
        rw [hmet,List.append_nil,← List.append_assoc] at hm
        exact hnext hm (by simp [hA₁,hA]) (by rw [List.length_cons] at hfuel; omega)
      | cons b B₁ => rfl

theorem eq_of_first {A' B' : List NodeId} (h : A ++ x :: B = A' ++ x :: B') (hA : x ∉ A) (hA' : x ∉ A') : A = A' := by
  have hlength := congrArg (List.idxOf x) h
  rw [List.idxOf_append_of_notMem hA,List.idxOf_append_of_notMem hA',List.idxOf_cons_self,List.idxOf_cons_self] at hlength
  exact List.append_inj_left h hlength

/-- What is read before a node that comes first in its own stretch is what comes before the stretch, unless the node comes first
in a line end. -/
theorem Store.Document.previousRendered_first {rest : List NodeId} (hdoc : t.Document w root height) (hn : t.Member w n)
    (hbegins : t.met height n = n :: rest) (hall : t.metAll w height = A ++ n :: B) (hA : n ∉ A) :
    CodeTree.previousRendered n t = .ok (A.getLast?.elim .none .node) ∨
      CodeTree.previousRendered n t = .ok .none ∧ ∃ m, t.isEnd m = true ∧ n ∈ t.below everywhere m := by
  obtain ⟨D,hD⟩ : ∃ D, 2 * t.depth = D + 1 := ⟨2 * t.depth - 1,by have := hdoc.depth; omega⟩
  have hsearch : ∀ {parent place ms xs ys}, t.Hangs parent place n → parent.isNone = false →
      CodeTree.readingOrder parent t = .ok ⟨dropRepeats .none (ms.map .node),none⟩ → ms = xs ++ n :: ys → n ∉ xs →
      CodeTree.previousRendered n t = .ok (xs.getLast?.elim .none .node) := by
    rintro parent place ms xs ys ⟨c,hc,rfl,-⟩ hsome horder hms hxs
    unfold CodeTree.previousRendered
    rw [Read.bind_known (a := t.depth) rfl,Read.node_known hc,hD]
    exact previousFrom_first hsome horder hms hxs
  obtain ⟨up,hup⟩ := hn.ancestry
  cases hup with
  | root hangs =>
    obtain ⟨rows,hrows,-,hsiblings⟩ := hdoc.nodes
    exact .inl (hsearch (hsiblings.hang n (hrows ▸ hangs)) rfl (hdoc.readingOrder hdoc.underlying) hall hA)
  | @step m _ up holder hangs =>
    obtain ⟨i,hi,htree⟩ := holder.tree hdoc
    obtain ⟨j,rfl⟩ := htree.succ
    obtain ⟨below,f,hf⟩ := htree.below hangs
    obtain ⟨A₁,B₁,haround,hapart,hfirst⟩ := htree.met_around hangs
    have hm : t.met height m = A₁ ++ n :: (rest ++ B₁) := by
      rw [htree.met_mono (by omega),haround,← below.met_mono (j := height) (by omega),hbegins,List.append_assoc]
      rfl
    have hA₁ : n ∉ A₁ := fun h => hapart n (List.mem_append_left _ h) .self
    have hprevious := hsearch hf rfl (hdoc.readingOrder_below holder.member) hm hA₁
    cases A₁ with
    | nil =>
      refine .inr ⟨hprevious,m,?_,hangs⟩
      cases hend : t.isEnd m with
      | true => rfl
      | false => exact absurd rfl (hfirst hend)
    | cons a A₁ =>
      obtain ⟨A',B',hstretch,hoff,-⟩ := holder.stretch hdoc
      have hsplit : A ++ n :: B = (A' ++ a :: A₁) ++ n :: (rest ++ B₁ ++ B') := by
        rw [← hall,hstretch,hm]
        simp only [List.append_assoc,List.cons_append]
      obtain rfl := eq_of_first hsplit hA (by simpa only [List.mem_append,not_or] using ⟨(hoff n (.step .self hangs)).1,hA₁⟩)
      rw [List.getLast?_append_of_ne_nil _ (List.cons_ne_nil _ _)]
      exact .inl hprevious

end Documents

section Main
variable {p : Parser} {source : String} {s t u : Store} {w : ViewId} {n : NodeId}

theorem Store.Document.call_reading {root : ListId} {height : Nat} {order : List Value} (hdoc : t.Document w root height)
    (horder : CodeTree.readingOrder (.list root) t = .ok ⟨order,none⟩) :
    call (.view w) "_generate_nodes_in_rendering_order" (.ofList []) p t =
      .ok (.list ⟨t.lists.size⟩) { t with lists := t.lists.push ⟨.stream,order,.none,none,[]⟩ } := by
  obtain ⟨vc,hw,-,htarget,-,-,hextra⟩ := hdoc.view
  obtain ⟨ms,hl,-⟩ := hdoc.rows
  have hword : Attr.ofWord "_generate_nodes_in_rendering_order" = .other "_generate_nodes_in_rendering_order" := by decide +kernel
  have hown : vc.own? (.ofWord "_generate_nodes_in_rendering_order") = none := by
    rw [hword]
    unfold ViewCell.own?
    rw [hextra]
    rfl
  rw [call_behind (by simp) hw htarget rfl hown hl rfl
    (show nodesAnswer root _ _ = some (do newStream (← Edit.lift (← CodeTree.readingOrder (.list root)).toExcept)) from rfl),
    Edit.read_known horder]
  rfl

/-- The neighbours in the reading order of a node of a new document that holds no nodes and does not stand in the formatting
of a line end. Reading the document gives a stream of nodes in which the node stands once; what is read before it and after
it, as the node itself answers, is what stands there just before it and just after it, or nothing. -/
theorem rendered_neighbours (h : newDocument source p s = .ok (.view w) t) (hgrows : t.Grows u) (hends : u.Indents w)
    (hn : u.Member w n) (hleaf : u.below everywhere n = []) (hplain : ∀ m, u.isEnd m = true → n ∉ u.below everywhere m) :
    ∃ before after : List NodeId, n ∉ before ∧ n ∉ after ∧
      call (.view w) "_generate_nodes_in_rendering_order" (.ofList []) p u = .ok (.list ⟨u.lists.size⟩)
        { u with lists := u.lists.push ⟨.stream,(before ++ n :: after).map .node,.none,none,[]⟩ } ∧
      attr (.node n) "previous_rendered" u = .ok (before.getLast?.elim .none .node) ∧
      attr (.node n) "next_rendered" u = .ok (after.head?.elim .none .node) := by
  obtain ⟨root,height,hdoc⟩ := newDocument_rooted h
  have hdoc := hdoc.grows hgrows
  obtain ⟨up,hup⟩ := hn.ancestry
  obtain ⟨i,hi,htree⟩ := hup.tree hdoc
  obtain ⟨d,hmet⟩ := (hdoc.member hn).met_leaf hleaf (fun c hc hkind => hends n c hn hc hkind)
  obtain ⟨j,c,rfl,hc⟩ := htree.opens
  obtain ⟨A,B,hall,hoff,hnext⟩ := hup.stretch hdoc
  obtain ⟨hA,hB⟩ := hoff n .self
  have hfirst := hall
  rw [hmet,List.append_assoc,List.replicate_succ,List.cons_append] at hfirst
  rw [hmet] at hall
  obtain ⟨before,after,hdrop,hbefore,hafter,hlast,hhead⟩ := dropRepeats_around (d := d) hA hB
  have hdepth := hdoc.depth
  have horder := hdoc.readingOrder (v := .list root) rfl
  rw [hall,hdrop] at horder
  refine ⟨before,after,hbefore,hafter,hdoc.call_reading horder,?_,?_⟩
  · refine attr_node_computed rfl (?_ : previousRendered n u = _)
    rw [hlast]
    exact (hdoc.previousRendered_first hn (by rw [hmet,List.replicate_succ]) hfirst hA).resolve_right
      (fun ⟨_,m,hend,hm⟩ => hplain m hend hm)
  · refine attr_node_computed rfl (?_ : nextRendered n u = _)
    unfold nextRendered
    rw [Read.bind_known (a := u.depth) rfl,Read.node_known hc.cell,hhead]
    exact (Read.bind_known (parentOf_node hc.cell)).symm.trans
      (hnext (A := []) hmet List.not_mem_nil (by omega : up.length + 1 < 2 * u.depth))

/-- The space before the body of a loop is read after the loop, which is met once more there, and before the name in the body.
The document ends in a line end. -/
theorem rendered_neighbours_space : ∃ w t, newDocument "while a: b\n" loopParser .empty = .ok (.view w) t ∧ t.Indents w ∧
    t.Member w ⟨3⟩ ∧ t.below everywhere ⟨3⟩ = [] ∧ t.isEnd ⟨5⟩ = true ∧
    call (.view w) "_generate_nodes_in_rendering_order" (.ofList []) loopParser t = .ok (.list ⟨t.lists.size⟩)
      { t with lists := t.lists.push ⟨.stream,[⟨0⟩,⟨1⟩,⟨2⟩,⟨0⟩,⟨3⟩,⟨4⟩,⟨5⟩].map .node,.none,none,[]⟩ } ∧
    attr (.node ⟨3⟩) "previous_rendered" t = .ok (.node ⟨0⟩) ∧ attr (.node ⟨3⟩) "next_rendered" t = .ok (.node ⟨4⟩) := by
  have hruns : (newDocument "while a: b\n").ensures loopParser .empty (fun v t => ⟨0⟩ ∈ t.nodesOf v ∧ ⟨3⟩ ∈ t.below everywhere ⟨0⟩ ∧
      t.below everywhere ⟨3⟩ = [] ∧ t.isEnd ⟨5⟩ = true ∧ (∀ i ∈ List.range t.nodes.size, t.isEnd ⟨i⟩ = true →
        t.below everywhere ⟨i⟩ = [] ∧ (t.indent? ⟨i⟩).any (·.reads "") = true) ∧
      ((behind v >>= readingOrder) t).toOption.map (fun order : Flow Value => order.items.filterMap Value.node?) =
        some [⟨0⟩,⟨1⟩,⟨2⟩,⟨0⟩,⟨3⟩,⟨4⟩,⟨5⟩]) = true := by
    decide +kernel
  obtain ⟨v,t,hdoc,hfacts⟩ := Edit.ensures_iff.mp hruns
  obtain ⟨w,root,height,rfl,htrees⟩ := newDocument_document hdoc
  obtain ⟨h0,h3,hleaf,hend,hends,horder⟩ := of_decide_eq_true hfacts
  have hmember : t.Member w ⟨3⟩ := ⟨⟨0⟩,h0,.step .self h3⟩
  have hall : ∀ m : NodeId, t.isEnd m = true → t.below everywhere m = [] ∧ t.indent? m = some (.text "") := by
    intro m hm
    obtain ⟨hbelow,hindent⟩ := hends m.index (List.mem_range.mpr (Store.lt_of_isEnd hm)) hm
    obtain ⟨x,hx,hreads⟩ := Option.any_eq_true _ _ |>.mp hindent
    exact ⟨hbelow,hx.trans (congrArg some (Value.reads_iff.mp hreads))⟩
  have hindents : t.Indents w := by
    intro m c _ hc hkind
    obtain ⟨-,hindent⟩ := hall m (by simp [Store.isEnd,hc,hkind])
    simp only [Store.indent?,hc,Option.bind_some] at hindent
    exact ⟨"",hindent⟩
  obtain ⟨before,after,hbefore,hafter,hcall,hprevious,hnext⟩ := rendered_neighbours hdoc (.refl t) hindents hmember hleaf
    (fun m hm => by rw [(hall m hm).1]; simp)
  have hread := htrees.readingOrder (v := .list root) rfl
  rw [Read.bind_known htrees.rooted,hread] at horder
  rw [htrees.call_reading hread] at hcall
  have hsame := congrArg (fun u : Store => (u.lists[t.lists.size]?).map (fun c => c.items)) (EStateM.Result.ok.inj hcall).2
  simp only [Array.getElem?_push_size,Option.map_some,Option.some.injEq] at hsame
  have hsplit : before ++ ⟨3⟩ :: after = [⟨0⟩,⟨1⟩,⟨2⟩,⟨0⟩] ++ ⟨3⟩ :: [⟨4⟩,⟨5⟩] := by
    simpa [hsame,Except.toOption,List.filterMap_map,Value.node?,Function.comp_def] using horder
  obtain ⟨rfl,-,rfl⟩ := (List.append_cons_inj_of_notMem hbefore hafter).mp hsplit
  exact ⟨w,t,hdoc,hindents,hmember,hleaf,hend,by rw [htrees.call_reading hread,hsame]; rfl,hprevious,hnext⟩

end Main

end CodeTree
