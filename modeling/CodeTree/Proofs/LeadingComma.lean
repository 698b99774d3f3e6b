import CodeTree.Proofs.CommaRuns

/-! # A comma in front of the items

After the destination of a statement that prints, the list of what is printed begins with a comma. What is expected of a
list knows nothing of it. So each pass starts out of step: one that takes away drops the comma, and one that adds puts
everything expected in front of it.
-/
namespace CodeTree
variable {p : Parser} {s t u : Store} {w : ViewId} {l : ListId} {n : NodeId} {f : Field} {k : Kind} {flat : Bool} {c a : Value}
  {D D' L E ys zs placed : List Value} {key : Value → Option Value} {plan : Plan Value} {change : Change} {fuel : Nat}

theorem Alternates.head {sep item : Value → Prop} (h : Alternates sep item L D) : L.head? = D.head? := by
  cases h <;> rfl

/-- What comes after the comma cannot be placed if its first item is expected in front, and nowhere else. -/
theorem suffix_of_placed (hplaced : c :: L = placed ++ zs) (hsub : (placed.map key).Sublist (spread flat (a :: D)))
    (hc : key c = none) (ha : key a = some a) (hL : L.head? = some a) (hD : a ∉ D) : L <:+ zs := by
  rcases placed with _ | ⟨x,_ | ⟨y,placed⟩⟩
  · exact ⟨[c],hplaced⟩
  · exact ⟨[],(List.cons.inj hplaced).2⟩
  · obtain ⟨rfl,rfl⟩ := List.cons.inj hplaced
    obtain rfl : y = a := Option.some.inj hL
    have hall : (none :: some y :: placed.map key).Sublist (some y :: none :: trailed D) := by
      rw [List.map_cons,List.map_cons,hc,ha] at hsub
      refine hsub.trans ?_
      cases flat with
      | true => exact (List.dropLast_prefix _).sublist
      | false => exact List.Sublist.refl _
    have hrest := (List.cons_sublist_cons'.mp hall).resolve_right (fun h => by cases h.1)
    have hmem : some y ∈ none :: trailed D := hrest.subset (by simp)
    simp only [trailed,List.mem_cons,List.mem_flatMap] at hmem
    obtain h | ⟨x,hx,h⟩ := hmem
    · cases h
    · simp only [Option.some.injEq,reduceCtorEq,List.not_mem_nil,or_false] at h
      exact absurd (h ▸ hx) hD

/-- The list begins with the items in turns with commas, and what is left over of it comes behind. -/
structure Overrun (s : Store) (w : ViewId) (l : ListId) (flat : Bool) (D ys zs : List Value) : Prop where
  shown : InStyle s w flat D
  behind : s.HasItems l .nodes (ys ++ zs)
  between : Alternates s.Comma (s.Item "comma") ys D

theorem InStep.overrun (h : InStep s w l n f k flat D L) : Overrun s w l flat D L [] :=
  ⟨h.shown,(List.append_nil L).symm ▸ h.behind,h.between⟩

section Passing
variable (hheld : Held s w l n f k .comma) (hshown : InStyle s w flat D') (hlist : s.HasItems l .nodes (c :: L))
  (hc : s.Comma c) (hL : Alternates s.Comma (s.Item "comma") L D) (hD' : ∀ x ∈ D', s.Item "comma" x)
include hheld hshown hlist hc hL hD'

theorem adding_overruns (h : bringInStep fuel .adding w p s = .ok () u) :
    ∃ ys zs, Overrun u w l flat D' ys zs ∧ zs <:+ c :: L ∧
      ∀ a, D.head? = some a → D'.head? = some a → a ∉ D'.tail → L <:+ zs := by
  obtain ⟨E,plan,hpass⟩ := bringInStep_commas hheld hshown hlist (List.forall_mem_cons.mpr ⟨.inl hc,hL.belongs⟩) hD' h
  have htype := Freedom.editing_type w l
  obtain ⟨placed,ys,zs,hsplit,hresult,hys,hsub,-⟩ := (hpass.adding rfl).split
  have hbetween : Between (ys.map (sepKey "comma" u)) D' := by
    rw [hpass.fits hys,hpass.expected]
    exact between_spread flat D'
  refine ⟨ys,zs,⟨hpass.shown,hresult ▸ hpass.behind,hbetween.alternates rfl (fun x hx => (hpass.belong x ?_).key)⟩,
    hsplit ▸ List.suffix_append _ _,?_⟩
  · rw [hresult]
    exact List.mem_append_left _ hx
  · intro a ha ha' hother
    obtain ⟨D'',rfl⟩ : ∃ D'', D' = a :: D'' := ⟨D'.tail,(List.cons_head?_tail ha').symm⟩
    rw [hpass.expected] at hsub
    exact suffix_of_placed hsplit hsub (hc.frame hpass.frame htype).key ((hD' a List.mem_cons_self).frame hpass.frame htype).sepKey
      (hL.head.trans ha) hother

theorem passes_overrun (hsub : change.passes = [.taking] → D'.Sublist D) (h : Passes p w change.passes s u) :
    ∃ ys zs, Overrun u w l flat D' ys zs ∧ zs <:+ c :: L ∧ (change.passes ≠ [.adding] → zs = []) ∧
      (change.passes = [.adding] → ∀ a, D.head? = some a → D'.head? = some a → a ∉ D'.tail → L <:+ zs) := by
  have hbelongs : ∀ x ∈ c :: L, s.Belongs x := List.forall_mem_cons.mpr ⟨.inl hc,hL.belongs⟩
  have hexact : ∀ {L'}, InStep u w l n f k flat D' L' → change.passes ≠ [.adding] →
      ∃ ys zs, Overrun u w l flat D' ys zs ∧ zs <:+ c :: L ∧ (change.passes ≠ [.adding] → zs = []) ∧
        (change.passes = [.adding] → ∀ a, D.head? = some a → D'.head? = some a → a ∉ D'.tail → L <:+ zs) :=
    fun hstep hpasses => ⟨_,[],hstep.overrun,List.nil_suffix,fun _ => rfl,fun h => absurd h hpasses⟩
  rcases change.passes_cases with hpasses | hpasses | hpasses | hpasses
  · obtain ⟨fuel,h⟩ := (hpasses ▸ h).single
    obtain ⟨ys,zs,hover,hzs,htwice⟩ := adding_overruns hheld hshown hlist hc hL hD' h
    exact ⟨ys,zs,hover,hzs,fun hne => absurd hpasses hne,fun _ => htwice⟩
  · obtain ⟨fuel,h⟩ := (hpasses ▸ h).single
    have hkeys : ∀ t, s.Frame (.editing w l) t → (trailed D').dropLast.Sublist ((c :: L).map (sepKey "comma" t)) := fun t hF =>
      ((hL.keys hF (Freedom.editing_type w l)).includes (hsub hpasses)).cons _
    obtain ⟨L',hstep,-⟩ := taking_inStep hheld hshown hlist hD' hbelongs hkeys h
    exact hexact hstep (by simp [hpasses])
  · obtain ⟨L',hstep,-⟩ := realigned_inStep hheld hshown hlist hD' hbelongs (hpasses ▸ h)
    exact hexact hstep (by simp [hpasses])
  · obtain ⟨v,h₁,h₂⟩ := (hpasses ▸ h).split
    obtain ⟨L₁,h₁,-⟩ := realigned_inStep hheld hshown hlist hD' hbelongs h₁
    obtain ⟨L',hstep,-⟩ := realigned_inStep h₁.held h₁.shown h₁.behind h₁.between.items h₁.between.belongs h₂
    exact hexact hstep (by simp [hpasses])

end Passing

/-- No call keeps the comma in front of the items. The list begins with the first item afterwards. It holds the items in turns
with commas, and only where something was added there may be something behind them: if the first item is still the first,
all items that were there before are there once more. -/
theorem run_after_comma (hheld : Held s w l n f k .comma) (hshown : InStyle s w flat D) (hlist : s.HasItems l .nodes (c :: L))
    (hc : s.Comma c) (hL : Alternates s.Comma (s.Item "comma") L D) (hsound : ∀ v ∈ change.values s, s.Sound "comma" v)
    (hrun : change.run w p s = .ok () u) :
    ∃ xs t D' ys zs, itemsFromEach w (change.values s) p s = .ok xs t ∧ change.Makes D xs D' ∧ u.ShowsItems w D' ∧
      u.HasItems l .nodes (ys ++ zs) ∧ Alternates u.Comma (u.Item "comma") ys D' ∧ zs <:+ c :: L ∧
      (∀ a, D'.head? = some a → (ys ++ zs).head? = some a ∧ ¬ u.Comma a) ∧ (change.passes ≠ [.adding] → zs = []) ∧
      (change.passes = [.adding] → ∀ a, D.head? = some a → D'.head? = some a → a ∉ D'.tail → L <:+ zs) := by
  obtain ⟨xs,t,D',hxs,hmakes,hF,hshown',hlist',hD',hpasses⟩ := Change.run_passes hheld hshown hlist hL.items hsound hrun
  have htype := Freedom.editing_type w l
  obtain ⟨ys,zs,hover,hzs,hrest⟩ := passes_overrun (stable_held _ _ hheld hF) hshown' hlist' (hc.frame hF htype)
    (hL.imp (fun c hc => hc.frame hF htype) (fun x hx => hx.frame hF htype)) hD' hmakes.takes hpasses
  refine ⟨xs,t,D',ys,zs,hxs,hmakes,hover.shown.shows,hover.behind,hover.between,hzs,fun a ha => ⟨?_,fun hcomma => ?_⟩,hrest⟩
  · rw [List.head?_append,hover.between.head,ha]
    rfl
  · exact hcomma.not_item (hover.between.items a (List.mem_of_mem_head? ha))

/-- The statement `print >>b,a`. -/
def printedName : Store :=
  ({ namesInBrackets with nodes := namesInBrackets.nodes.set! 0 ⟨.printStmt,.none,none,false,[.type],[.value],[.destination],
    [(.field .type,.text "print"),(.field .destination,.node ⟨3⟩),(.field .value,.view ⟨0⟩)],none⟩ }.holding ⟨2⟩
      [.node ⟨2⟩,.node ⟨1⟩]).showing ⟨0⟩ [.node ⟨1⟩]

/-- Appending a name leaves the one that was there twice. -/
theorem run_after_comma_name : ∃ u ys zs, (Change.append (.node ⟨3⟩)).run ⟨0⟩ (fun _ => .ok .null) printedName = .ok () u ∧
    u.HasItems ⟨2⟩ .nodes (ys ++ zs) ∧ Alternates u.Comma (u.Item "comma") ys [.node ⟨1⟩,.node ⟨3⟩] ∧ [.node ⟨1⟩] <:+ zs := by
  have hsucceeds : ((Change.append (.node ⟨3⟩)).run ⟨0⟩).succeeds (fun _ => .ok .null) printedName = true := by decide +kernel
  obtain ⟨_,u,hrun⟩ := Edit.succeeds_iff.mp hsucceeds
  have hname : ∀ {i c}, printedName.nodes[i]? = some c → c.stored? (.field .type) = some (.text "name") →
      printedName.Goes (.node ⟨i⟩) c.kind (.text "name") := fun hc htype => ⟨_,_,rfl,hc,rfl,htype⟩
  have hcomma : printedName.Comma (.node ⟨2⟩) := ⟨_,_,rfl,rfl,rfl,rfl,rfl,rfl,rfl,rfl,rfl⟩
  have hshown : InStyle printedName ⟨0⟩ true [.node ⟨1⟩] := ⟨_,rfl,rfl,rfl⟩
  have hsound : ∀ v ∈ (Change.append (.node ⟨3⟩)).values printedName, printedName.Sound "comma" v := by
    intro v hv
    obtain rfl := List.mem_singleton.mp hv
    exact ⟨_,_,hname rfl rfl,by simp⟩
  obtain ⟨xs,t,D',ys,zs,hxs,hmakes,-,hbehind,hbetween,-,-,-,htwice⟩ := run_after_comma (k := .printStmt) (f := .value)
    ⟨⟨_,rfl,rfl,rfl,rfl⟩,⟨_,rfl,rfl,rfl,rfl⟩,⟨_,rfl,rfl⟩,rfl⟩ hshown ⟨_,rfl,rfl,rfl⟩ hcomma
    (.last ⟨_,_,hname rfl rfl,by simp⟩) hsound hrun
  obtain ⟨x,rfl,rfl⟩ := hmakes
  obtain rfl : x = .node ⟨3⟩ := (List.forall₂_cons.mp (itemsFromEach_nodes hxs)).1 _ rfl
  exact ⟨u,ys,zs,hrun,hbehind,hbetween,htwice rfl _ rfl rfl (by simp)⟩

end CodeTree
