import CodeTree.Proofs.Storing

/-! # Checks while building

What is stored under some fields has to pass a check: operators, names, delimiters, and words that the parser has to
confirm. Whether plain data pass depends on the data and the parser, and not on the store.
-/
namespace CodeTree

variable {p : Parser} {k : Kind} {f : Field} {d : Datum} {s t u : Store} {n : NodeId} {c : NodeCell} {v : Value}

/-- A datum passes the checks that are made when it is stored under a field of a node that is being built. -/
def Admits (p : Parser) (k : Kind) (f : Field) (d : Datum) : Prop :=
  ∀ ⦃n : NodeId⦄ ⦃s : Store⦄ ⦃c : NodeCell⦄, s.nodes[n.index]? = some c → c.building = true →
    ∃ v t, prepareStore n k (.field f) (.ofDatum d) p s = .ok v t

theorem assignmentOperator_store (d : Datum) (s u : Store) :
    assignmentOperator (.ofDatum d) s = assignmentOperator (.ofDatum d) u := by
  have hsized : ∀ (v : Value) (size : Nat), (if size ≤ 2 then return v else throw (.refused .operatorLength) : Read Value) s =
      (if size ≤ 2 then return v else throw (.refused .operatorLength) : Read Value) u := by
    intro v size
    split <;> rfl
  cases d with
  | text x =>
    unfold Value.ofDatum assignmentOperator
    dsimp only
    generalize x.toList = cs
    rcases cs with _ | ⟨c,_ | ⟨e,_ | _⟩⟩ <;> rfl
  | list ds => exact hsized _ _
  | record fields => exact hsized _ _
  | _ => rfl

theorem checkName_store (why : Refusal) (d : Datum) (s u : Store) :
    checkName why (.ofDatum d) s = checkName why (.ofDatum d) u := by
  cases d with
  | text x =>
    unfold Value.ofDatum checkName
    dsimp only
    split <;> rfl
  | _ => rfl

theorem confirm_run {text type : String} (h : confirm text type p s = .ok () t) (u : Store) :
    confirm text type p u = .ok () u := by
  unfold confirm at h ⊢
  simp only [Edit.bind_ok,Edit.parse_ok,Edit.lift_ok] at h ⊢
  obtain ⟨d,_,⟨hd,rfl⟩,e,_,⟨he,rfl⟩,h⟩ := h
  refine ⟨d,u,⟨hd,rfl⟩,e,u,⟨he,rfl⟩,?_⟩
  split at h
  · next hsame => rw [if_pos hsame]; rfl
  · exact absurd h Edit.throw_ok

theorem spacings_run (hc : s.nodes[n.index]? = some c) (hb : c.building = true) (p : Parser) (f g : Field)
    (place : Option Attr) (present : Bool) (hplace : present = true → place = some (.field .delimiter)) (v : Value) :
    ∃ t, (do
      setSpacing n f place present
      setSpacing n g (some (.field .delimiter)) true
      return v : Edit Value) p s = .ok v t := by
  obtain ⟨s₁,v₁,h₁,-,hc₁,-⟩ := setSpacing_run hc hb p f hplace
  obtain ⟨s₂,v₂,h₂,-⟩ := setSpacing_run hc₁ hb p g (fun (_ : true = true) => rfl)
  exact ⟨s₂,Edit.bind_ok.mpr ⟨_,_,h₁,Edit.bind_ok.mpr ⟨_,_,h₂,rfl⟩⟩⟩

/-- Fields that are checked or put in order when they are stored. -/
def Kind.checks (k : Kind) (f : Field) : Bool :=
  match k, f with
  | .assignment, .operator | .binary, .value | .binaryOperator, .value | .booleanOperator, .value | .comparison, .value
  | .dottedAsName, .target | .nameAsName, .target | .nameAsName, .value | .exceptBranch, .delimiter => true
  | _, _ => false

theorem prepareStore_unchecked (h : k.checks f = false) (n : NodeId) (v : Value) :
    prepareStore n k (.field f) v = pure v := by
  unfold prepareStore
  split
  case h_10 => rfl
  all_goals
    next heq =>
    cases heq
    cases h

theorem admits_unchecked (h : k.checks f = false) : Admits p k f d := by
  intro n s c _ _
  rw [prepareStore_unchecked h]
  exact ⟨_,_,rfl⟩

theorem delimiter_run (h : d = .text "," ∨ d = .text "as" ∨ d.truth = false) (hc : s.nodes[n.index]? = some c)
    (hb : c.building = true) : ∃ v t, prepareStore n .exceptBranch (.field .delimiter) (.ofDatum d) p s = .ok v t := by
  have htwo : ∀ (place : Option Attr) (present : Bool), (present = true → place = some (.field .delimiter)) → ∃ v t, (do
      setSpacing n .secondFormatting place present
      setSpacing n .thirdFormatting (some (.field .delimiter)) true
      return .ofDatum d : Edit Value) p s = .ok v t := fun place present hplace =>
    (spacings_run hc hb p .secondFormatting .thirdFormatting place present hplace (.ofDatum d)).elim (fun t ht => ⟨_,t,ht⟩)
  change ∃ v t, ((liftM (equal (.ofDatum d) (.text ",")) : Edit Bool) >>= _) p s = .ok v t
  rw [Edit.read_known (equal_ofDatum d "," s)]
  by_cases hcomma : d = .text ","
  · subst hcomma
    exact htwo none false (fun h => by cases h)
  · rw [Datum.same_text_eq_false hcomma]
    change ∃ v t, ((liftM (equal (.ofDatum d) (.text "as")) : Edit Bool) >>= _) p s = .ok v t
    rw [Edit.read_known (equal_ofDatum d "as" s)]
    by_cases has : d = .text "as"
    · subst has
      exact htwo _ true (fun _ => rfl)
    · rw [Datum.same_text_eq_false has]
      change ∃ v t, ((liftM (truth (.ofDatum d)) : Edit Bool) >>= _) p s = .ok v t
      rw [Edit.read_known (truth_ofDatum d s),(h.resolve_left hcomma).resolve_left has]
      exact ⟨_,_,rfl⟩

theorem delimiter_ok : (prepareStore n .exceptBranch (.field .delimiter) (.ofDatum d)).Yields p s
    (fun _ _ => d = .text "," ∨ d = .text "as" ∨ d.truth = false) := by
  intro v t h
  by_cases hcomma : d = .text ","
  · exact .inl hcomma
  by_cases has : d = .text "as"
  · exact .inr (.inl has)
  change ((liftM (equal (.ofDatum d) (.text ",")) : Edit Bool) >>= _) p s = .ok v t at h
  rw [Edit.read_known (equal_ofDatum d "," s),Datum.same_text_eq_false hcomma] at h
  change ((liftM (equal (.ofDatum d) (.text "as")) : Edit Bool) >>= _) p s = .ok v t at h
  rw [Edit.read_known (equal_ofDatum d "as" s),Datum.same_text_eq_false has] at h
  change ((liftM (truth (.ofDatum d)) : Edit Bool) >>= _) p s = .ok v t at h
  rw [Edit.read_known (truth_ofDatum d s)] at h
  cases htruth : d.truth with
  | false => exact .inr (.inr rfl)
  | true =>
    rw [htruth] at h
    obtain ⟨_,_,hthrow,-⟩ := Edit.bind_ok.mp h
    exact absurd hthrow Edit.throw_ok

/-- Whether a datum passes its checks does not depend on the store. -/
theorem prepareStore_admits : (prepareStore n k (.field f) (.ofDatum d)).Yields p s (fun _ _ => Admits p k f d) := by
  have halias : ∀ {why : Refusal} {rest : Unit → Edit Value}, (liftM (checkName why (.ofDatum d)) >>= rest : Edit Value).Yields p s
      (fun _ _ => ∀ u, checkName why (.ofDatum d) u = .ok ()) := by
    intro why rest v t h u
    obtain ⟨_,_,h₁,-⟩ := Edit.bind_ok.mp h
    rw [checkName_store why d u s]
    exact (Edit.read_ok.mp h₁).1
  have hspace : ∀ {m : NodeId} {u : Store} {c : NodeCell}, u.nodes[m.index]? = some c → c.building = true → ∃ v t, (do
      if ← truth (.ofDatum d) then
        setSpacing m .firstFormatting (some (.field .delimiter)) true
        setSpacing m .secondFormatting (some (.field .delimiter)) true
      return .ofDatum d : Edit Value) p u = .ok v t := by
    intro m u c hc hb
    rw [Edit.read_known (truth_ofDatum d u)]
    split
    · obtain ⟨t,ht⟩ := spacings_run hc hb p .firstFormatting .secondFormatting (some (.field .delimiter)) true
        (fun _ => rfl) (.ofDatum d)
      exact ⟨_,t,ht⟩
    · exact ⟨_,_,rfl⟩
  cases hchecks : k.checks f with
  | false => exact fun _ _ _ => admits_unchecked hchecks
  | true =>
    unfold prepareStore
    split
    case h_1 heq =>
      cases heq
      intro v t h m u c hc hb
      obtain ⟨hv,-⟩ := Edit.read_ok.mp h
      rw [assignmentOperator_store d s u] at hv
      exact ⟨v,u,Edit.read_ok.mpr ⟨hv,rfl⟩⟩
    case h_6 heq =>
      cases heq
      intro v t h m u c hc hb
      obtain ⟨v',t',hrun⟩ := hspace hc hb
      exact ⟨v',t',(Edit.read_known (halias v t h u)).trans hrun⟩
    case h_7 heq =>
      cases heq
      intro v t h m u c hc hb
      obtain ⟨v',t',hrun⟩ := hspace hc hb
      exact ⟨v',t',(Edit.read_known (halias v t h u)).trans hrun⟩
    case h_8 heq =>
      cases heq
      intro v t h m u c hc hb
      exact ⟨_,_,Edit.read_known (halias v t h u)⟩
    case h_9 heq =>
      cases heq
      intro v t h m u c hc hb
      exact delimiter_run (delimiter_ok v t h) hc hb
    case h_10 =>
      unfold Kind.checks at hchecks
      split at hchecks <;> simp_all
    all_goals
      next heq =>
      cases heq
      intro v t h m u c hc hb
      cases d with
      | text x =>
        obtain ⟨_,_,h₁,-⟩ := Edit.bind_ok.mp h
        exact ⟨_,_,Edit.bind_ok.mpr ⟨_,_,confirm_run h₁ u,rfl⟩⟩
      | _ => exact ⟨_,_,rfl⟩

theorem Admits.inked (h : Admits p k f d) (hr : respacing k f d ≠ []) : d.Inked := by
  have hc : (Store.empty.addNode ⟨k,.none,none,true,[],[],[],[],none⟩).nodes[0]? = some ⟨k,.none,none,true,[],[],[],[],none⟩ := rfl
  obtain ⟨v,t,hrun⟩ := h (n := ⟨0⟩) hc rfl
  exact prepareStore_inked hr v t hrun

end CodeTree
