import CodeTree.Proofs.Rendering
import CodeTree.Proofs.Routes

/-! # Where a part of a text lies

Reading a datum spells a text, and the box of a part is taken down while the text goes by. Cutting the text
along the box gives the text of the part. One word is its own exception: where a field is named like the
keyword before it, the box is closed at the keyword and opened anew at the field, and it cuts out nothing.
-/
namespace CodeTree
variable {d e : Datum} {f : Field} {form : Form} {fields : List (String × Datum)} {cs : List Char} {ds : List Datum}
  {keys : List Key} {slots : List Slot} {xs : List String} {i j : Nat} {shown : Shown} {slot : Slot} {x word : String}

section Cutting

namespace Position

/-- The position after one more character. -/
def next (p : Position) (c : Char) : Position := if c = '\n' then ⟨p.line + 1,1⟩ else ⟨p.line,p.column + 1⟩

/-- The position after a text. -/
def along (p : Position) (cs : List Char) : Position := cs.foldl next p

/-- Positions in reading order. -/
def Before (p q : Position) : Prop := p.line < q.line ∨ p.line = q.line ∧ p.column < q.column

instance (p q : Position) : Decidable (p.Before q) := inferInstanceAs (Decidable (_ ∨ _))

end Position

/-- Whether a position is in a box, its corners included. -/
def Box.Covers (b : Box) (p : Position) : Prop := ¬ p.Before b.topLeft ∧ ¬ b.bottomRight.Before p

instance (b : Box) (p : Position) : Decidable (b.Covers p) := inferInstanceAs (Decidable (_ ∧ _))

/-- The characters in a box, of a text that begins at a position. -/
def Box.cutFrom (b : Box) (p : Position) : List Char → List Char
  | [] => []
  | c :: cs => if b.Covers p then c :: b.cutFrom (p.next c) cs else b.cutFrom (p.next c) cs

/-- What a box cuts out of a text. -/
def Box.cut (b : Box) (text : String) : String := String.ofList (b.cutFrom .start text.toList)

namespace Position
variable {p q r : Position}

theorem along_cons (p : Position) (c : Char) (cs : List Char) : p.along (c :: cs) = (p.next c).along cs := rfl

theorem along_append (p : Position) (xs ys : List Char) : p.along (xs ++ ys) = (p.along xs).along ys :=
  List.foldl_append

theorem Before.trans (h : p.Before q) (h' : q.Before r) : p.Before r := by
  unfold Before at *
  omega

theorem before_next (p : Position) (c : Char) : p.Before (p.next c) := by
  unfold next Before
  split
  · exact .inl (Nat.lt_succ_self _)
  · exact .inr ⟨rfl,Nat.lt_succ_self _⟩

theorem along_not_before (p : Position) (cs : List Char) : ¬ (p.along cs).Before p := by
  induction cs generalizing p with
  | nil => simp [along,Before]
  | cons c cs ih =>
    intro h
    exact ih (p.next c) (h.trans (p.before_next c))

theorem before_along (p : Position) (c : Char) (cs : List Char) : p.Before (p.along (c :: cs)) := by
  have hstep := p.before_next c
  have hrest := (p.next c).along_not_before cs
  rw [along_cons]
  unfold Before at *
  omega

theorem column_along (hp : 1 ≤ p.column) (cs : List Char) : 1 ≤ (p.along cs).column := by
  induction cs generalizing p with
  | nil => exact hp
  | cons c cs ih =>
    refine ih ?_
    unfold next
    split
    · exact Nat.le_refl 1
    · exact Nat.le_add_left 1 _

theorem left_before (hq : 1 ≤ q.column) (h : ¬ p.Before q) : q.left.Before p := by
  unfold Before left at *
  dsimp only
  omega

theorem not_left_before (h : p.Before q) : ¬ q.left.Before p := by
  unfold Before left at *
  dsimp only
  omega

end Position

namespace Box
variable {b : Box} {p q : Position}

theorem cutFrom_append (b : Box) (p : Position) (xs ys : List Char) :
    b.cutFrom p (xs ++ ys) = b.cutFrom p xs ++ b.cutFrom (p.along xs) ys := by
  induction xs generalizing p with
  | nil => rfl
  | cons c xs ih =>
    simp only [List.cons_append,cutFrom,ih,Position.along_cons]
    split <;> rfl

theorem cutFrom_none (h : ∀ xs c ys, cs = xs ++ c :: ys → ¬ b.Covers (p.along xs)) : b.cutFrom p cs = [] := by
  induction cs generalizing p with
  | nil => rfl
  | cons c cs ih =>
    have hout : ¬ b.Covers p := h [] c cs rfl
    rw [cutFrom,if_neg hout]
    refine ih (fun xs d ys heq => ?_)
    exact h (c :: xs) d ys (by rw [heq]; rfl)

theorem cutFrom_all (h : ∀ xs c ys, cs = xs ++ c :: ys → b.Covers (p.along xs)) : b.cutFrom p cs = cs := by
  induction cs generalizing p with
  | nil => rfl
  | cons c cs ih =>
    have hin : b.Covers p := h [] c cs rfl
    rw [cutFrom,if_pos hin,ih]
    intro xs d ys heq
    exact h (c :: xs) d ys (by rw [heq]; rfl)

theorem cut_between (before s after : List Char) :
    Box.cut ⟨Position.start.along before,(Position.start.along (before ++ s)).left⟩ (String.ofList (before ++ s ++ after)) =
      String.ofList s := by
  have hfirst : 1 ≤ (Position.start.along (before ++ s)).column := Position.column_along (Nat.le_refl 1) _
  unfold cut
  rw [String.toList_ofList,cutFrom_append,cutFrom_append,cutFrom_none,cutFrom_all,cutFrom_none,List.nil_append,List.append_nil]
  · intro xs c ys hys hcovers
    refine hcovers.2 (Position.left_before hfirst ?_)
    exact Position.along_not_before _ xs
  · intro xs c ys hys
    refine ⟨Position.along_not_before _ xs,Position.not_left_before ?_⟩
    rw [hys,Position.along_append _ before,Position.along_append _ xs]
    exact Position.before_along _ c ys
  · intro xs c ys hys hcovers
    refine hcovers.1 ?_
    dsimp only
    rw [hys,Position.along_append _ xs]
    exact Position.before_along _ c ys

theorem cut_crossed (close gap text : List Char) :
    Box.cut ⟨Position.start.along (close ++ gap),(Position.start.along close).left⟩ (String.ofList text) = "" := by
  have hfirst : 1 ≤ (Position.start.along close).column := Position.column_along (Nat.le_refl 1) _
  unfold cut
  rw [cutFrom_none]
  intro xs c ys hys hcovers
  have hlate : ¬ (Position.start.along xs).Before (Position.start.along (close ++ gap)) := hcovers.1
  have hgap := Position.along_not_before (Position.start.along close) gap
  rw [Position.along_append] at hlate
  refine hcovers.2 (Position.left_before hfirst ?_)
  unfold Position.Before at *
  omega

end Box

end Cutting

section Taking

namespace BoxSearch

/-- The state stands right after the last position it knows. -/
def Even (st : BoxSearch) : Prop := st.left = st.position.left

/-- The state after a text has gone by. -/
def move (st : BoxSearch) (cs : List Char) : BoxSearch :=
  { st with position := st.position.along cs, left := (st.position.along cs).left }

/-- The state after a text has gone by in which the part begins after some of it and first ends after some. -/
def mark (st : BoxSearch) (cs before close : List Char) : BoxSearch :=
  { st.move cs with
    found := true
    topLeft := some (st.position.along before)
    bottomRight := st.bottomRight.or (some (st.position.along close).left) }

variable {st : BoxSearch}

theorem move_even (st : BoxSearch) (cs : List Char) : (st.move cs).Even := rfl

theorem Even.move_nil (h : st.Even) : st.move [] = st := by
  have hleft : (st.position.along []).left = st.left := h.symm
  unfold move
  rw [hleft]
  rfl

theorem move_move (st : BoxSearch) (xs ys : List Char) : (st.move xs).move ys = st.move (xs ++ ys) := by
  unfold move
  rw [Position.along_append]

theorem pass_push (st : BoxSearch) (c : Char) (hc : c ≠ '\n') (ps : List Text.Piece) :
    st.pass (Text.Piece.push c ps) = (st.move [c]).pass ps := by
  have hnext : st.position.along [c] = ⟨st.position.line,st.position.column + 1⟩ := if_neg hc
  have hone : st.pass (.run [c] :: ps) = (st.move [c]).pass ps := by
    unfold move
    rw [hnext]
    rfl
  unfold Text.Piece.push
  split
  · next text rest =>
    cases text with
    | nil => exact hone
    | cons d text =>
      unfold move
      rw [hnext]
      simp only [pass,Position.after,List.length_cons]
      rw [show st.position.column + (text.length + 1 + 1) = st.position.column + 1 + (text.length + 1) by omega]
  · exact hone

theorem pass_pieces (hcs : '\r' ∉ cs) (h : st.Even) : st.pass (Text.pieces cs) = st.move cs := by
  induction cs generalizing st with
  | nil => exact h.move_nil.symm
  | cons c cs ih =>
    have hc : c ≠ '\r' := fun heq => hcs (heq ▸ List.mem_cons_self)
    have hrest : (st.move [c]).pass (Text.pieces cs) = st.move (c :: cs) := by
      rw [ih (fun hmem => hcs (List.mem_cons_of_mem _ hmem)) (st.move_even _),move_move]
      rfl
    rw [← hrest]
    conv_lhs => unfold Text.pieces
    split
    · next heq => cases heq
    · next heq =>
      injection heq with heq
      exact absurd heq hc
    · next c' cs' _ heq =>
      injection heq with heq₁ heq₂
      subst heq₁ heq₂
      by_cases hline : c = '\n'
      · subst hline
        rw [if_pos (.inl rfl)]
        generalize Text.pieces cs = ps
        rfl
      · rw [if_neg (by simp [hline,hc])]
        exact st.pass_push c hline _

theorem run_append {T : List Key} {xs ys : List Event} {mid : BoxSearch} (h : st.run T xs = .ok mid) :
    st.run T (xs ++ ys) = mid.run T ys := by
  induction xs generalizing st with
  | nil =>
    cases h
    rfl
  | cons e xs ih =>
    simp only [List.cons_append,run] at h ⊢
    cases hstep : st.step T e with
    | error fault => simp [hstep] at h
    | ok next =>
      rw [hstep] at h
      exact ih h

end BoxSearch

/-- Reading a flow that spells a text changes a state as a function says, from where the keys read so far
are given. -/
def Goes (T P : List Key) (flow : Flow Event) (x : String) (F : BoxSearch → BoxSearch) : Prop :=
  '\r' ∉ x.toList → flow.fault = none ∧
    ∀ st : BoxSearch, st.path = P → st.Even → st.run T flow.items = .ok (F st) ∧ (F st).path = P ∧ (F st).Even

/-- The characters that events spell, each with the keys it stands under, from where the keys read so far are given. -/
def lettered (P : List Key) : List Event → List (Char × List Key)
  | [] => []
  | .enter key :: rest => lettered (key :: P) rest
  | .leave :: rest => lettered P.tail rest
  | .text (.text s) :: rest => s.toList.map (·,P) ++ lettered P rest
  | .text _ :: rest => lettered P rest

/-- Of the characters that a flow spells, those at the given places stand under the target. -/
def Inks (T P : List Key) (flow : Flow Event) (x : String) (inside : Nat → Prop) : Prop :=
  ∃ cs : List (Char × List Key), cs.map Prod.fst = x.toList ∧
    (∀ rest, lettered P (flow.items ++ rest) = cs ++ lettered P rest) ∧
    ∀ i q, cs[i]? = some q → (T <:+ q.2 ↔ inside i)

/-- A flow goes by without a mark. -/
structure Skips (T P : List Key) (flow : Flow Event) (x : String) : Prop where
  goes : Goes T P flow x (·.move x.toList)
  inks : '\r' ∉ x.toList → Inks T P flow x (fun _ => T <:+ P)

/-- A flow marks where the part begins, and where it first ends. If it is entered once, then it is what lies between. -/
structure Hits (once : Bool) (T P : List Key) (flow : Flow Event) (x : String) (before close : List Char) : Prop where
  goes : Goes T P flow x (·.mark x.toList before close)
  out : ¬ T <:+ P
  ends : close.length ≤ x.toList.length
  inks : once = true → '\r' ∉ x.toList → Inks T P flow x (fun i => before.length ≤ i ∧ i < close.length)

/-- A flow inside a slot or item. -/
def within (key : Key) (flow : Flow Event) : Flow Event :=
  .append (.ofList [.enter key]) (.append flow (.ofList [.leave]))

theorem no_suffix_self (key : Key) (P : List Key) : ¬ key :: P <:+ P := by
  intro h
  have hlen := h.length_le
  rw [List.length_cons] at hlen
  omega

section Flows
variable {T P : List Key} {a b : Flow Event} {x y : String} {before close : List Char} {key : Key}
  {F G H : BoxSearch → BoxSearch} {I J K : Nat → Prop} {once : Bool}

theorem Inks.append (ha : Inks T P a x I) (hb : Inks T P b y J) (hfault : a.fault = none)
    (hI : ∀ i, i < x.toList.length → (I i ↔ K i)) (hJ : ∀ i, J i ↔ K (x.toList.length + i)) :
    Inks T P (a.append b) (x ++ y) K := by
  obtain ⟨cs,hcs,hreada,hina⟩ := ha
  obtain ⟨ds,hds,hreadb,hinb⟩ := hb
  have hlen : cs.length = x.toList.length := by rw [← hcs,List.length_map]
  have hitems : (a.append b).items = a.items ++ b.items := by
    unfold Flow.append
    rw [hfault]
  refine ⟨cs ++ ds,by rw [List.map_append,hcs,hds,String.toList_append],fun rest => ?_,fun i q hq => ?_⟩
  · rw [hitems,List.append_assoc,hreada,hreadb,List.append_assoc]
  · by_cases hi : i < cs.length
    · rw [List.getElem?_append_left hi] at hq
      exact (hina i q hq).trans (hI i (hlen ▸ hi))
    · rw [List.getElem?_append_right (by omega)] at hq
      rw [hinb _ q hq,hJ,← hlen,Nat.add_sub_cancel' (by omega)]

theorem Inks.within (h : Inks T (key :: P) a x I) (hfault : a.fault = none) (hIJ : ∀ i, i < x.toList.length → (I i ↔ J i)) :
    Inks T P (within key a) x J := by
  obtain ⟨cs,hcs,hread,hin⟩ := h
  have hitems : (CodeTree.within key a).items = .enter key :: (a.items ++ [.leave]) := by
    unfold CodeTree.within Flow.append
    rw [hfault]
    rfl
  refine ⟨cs,hcs,fun rest => ?_,fun i q hq => (hin i q hq).trans (hIJ i ?_)⟩
  · rw [hitems,List.cons_append,lettered,List.append_assoc,hread]
    rfl
  · rw [← hcs,List.length_map]
    exact (List.getElem?_eq_some_iff.mp hq).1

theorem Goes.append (ha : Goes T P a x F) (hb : Goes T P b y G) (hH : ∀ st, G (F st) = H st) :
    Goes T P (a.append b) (x ++ y) H := by
  intro hr
  rw [String.toList_append,List.mem_append,not_or] at hr
  obtain ⟨hfa,hruna⟩ := ha hr.1
  obtain ⟨hfb,hrunb⟩ := hb hr.2
  have hflow : a.append b = ⟨a.items ++ b.items,none⟩ := by
    unfold Flow.append
    rw [hfa,hfb]
  rw [hflow]
  refine ⟨rfl,fun st hpath heven => ?_⟩
  obtain ⟨hrun,hpath',heven'⟩ := hruna st hpath heven
  have hend := hrunb (F st) hpath' heven'
  rw [hH] at hend
  rw [BoxSearch.run_append hrun]
  exact hend

theorem Goes.within (hkey : key :: P ≠ T) (h : Goes T (key :: P) a x F)
    (hH : ∀ st, st.path = P → { F { st with path := key :: P } with path := P } = H st) :
    Goes T P (within key a) x H := by
  intro hr
  obtain ⟨hfault,hrun⟩ := h hr
  have hflow : CodeTree.within key a = ⟨.enter key :: (a.items ++ [.leave]),none⟩ := by
    unfold CodeTree.within Flow.append
    rw [hfault]
    rfl
  rw [hflow]
  refine ⟨rfl,fun st hpath heven => ?_⟩
  obtain ⟨hinner,hpath',heven'⟩ := hrun { st with path := key :: P } rfl heven
  have hbeq : (key :: P == T) = false := by simpa using hkey
  rw [← hH st hpath]
  refine ⟨?_,rfl,heven'⟩
  simp only [BoxSearch.run,BoxSearch.step,hpath,hbeq,Bool.false_eq_true,if_false]
  rw [BoxSearch.run_append hinner]
  simp only [BoxSearch.run,BoxSearch.step,hpath',hbeq,Bool.and_false,Bool.false_eq_true,if_false,List.tail_cons]

theorem Skips.nil : Skips T P (.ofList []) "" := by
  refine ⟨fun _ => ⟨rfl,fun st hpath heven => ⟨?_,hpath,st.move_even _⟩⟩,fun _ => ⟨[],rfl,fun _ => rfl,nofun⟩⟩
  exact congrArg Except.ok heven.move_nil.symm

theorem Skips.text (x : String) : Skips T P (.ofList [.text (.text x)]) x := by
  refine ⟨fun hr => ⟨rfl,fun st hpath heven => ⟨?_,hpath,st.move_even _⟩⟩,fun _ =>
    ⟨x.toList.map (·,P),by rw [List.map_map]; exact List.map_id _,fun _ => rfl,?_⟩⟩
  · simp only [Flow.ofList,BoxSearch.run,BoxSearch.step,BoxSearch.pass_pieces hr heven]
  · intro i q hq
    obtain ⟨c,-,rfl⟩ := List.mem_map.mp (List.mem_of_getElem? hq)
    exact Iff.rfl

theorem Skips.append (ha : Skips T P a x) (hb : Skips T P b y) : Skips T P (a.append b) (x ++ y) where
  goes := Goes.append ha.goes hb.goes (fun st => by rw [BoxSearch.move_move,String.toList_append])
  inks hr := by
    rw [String.toList_append,List.mem_append,not_or] at hr
    exact (ha.inks hr.1).append (hb.inks hr.2) (ha.goes hr.1).1 (fun _ _ => Iff.rfl) (fun _ => Iff.rfl)

theorem Hits.append (ha : Hits once T P a x before close) (hb : Skips T P b y) :
    Hits once T P (a.append b) (x ++ y) before close where
  goes := Goes.append ha.goes hb.goes (fun st => by
    unfold BoxSearch.mark
    rw [String.toList_append,← BoxSearch.move_move]
    rfl)
  out := ha.out
  ends := by
    have hends := ha.ends
    rw [String.toList_append,List.length_append]
    omega
  inks honce hr := by
    have hends := ha.ends
    rw [String.toList_append,List.mem_append,not_or] at hr
    refine (ha.inks honce hr.1).append (hb.inks hr.2) (ha.goes hr.1).1 (fun _ _ => Iff.rfl) (fun i => iff_of_false ha.out ?_)
    omega

theorem Skips.hits (ha : Skips T P a x) (hb : Hits once T P b y before close) :
    Hits once T P (a.append b) (x ++ y) (x.toList ++ before) (x.toList ++ close) where
  goes := Goes.append ha.goes hb.goes (fun st => by
    unfold BoxSearch.mark
    rw [String.toList_append,← BoxSearch.move_move,Position.along_append,Position.along_append]
    rfl)
  out := hb.out
  ends := by
    have hends := hb.ends
    rw [String.toList_append,List.length_append,List.length_append]
    omega
  inks honce hr := by
    rw [String.toList_append,List.mem_append,not_or] at hr
    refine (ha.inks hr.1).append (hb.inks honce hr.2) (ha.goes hr.1).1 (fun i hi => iff_of_false hb.out ?_) (fun i => ?_)
    all_goals
      rw [List.length_append,List.length_append]
      omega

theorem Hits.hits {before' close' : List Char} (ha : Hits once T P a x before close) (hb : Hits once T P b y before' close') :
    Hits false T P (a.append b) (x ++ y) (x.toList ++ before') close where
  goes := Goes.append ha.goes hb.goes (fun st => by
    unfold BoxSearch.mark
    rw [String.toList_append,← BoxSearch.move_move,Position.along_append]
    cases st.bottomRight <;> rfl)
  out := ha.out
  ends := by
    have hends := ha.ends
    rw [String.toList_append,List.length_append]
    omega
  inks := nofun

theorem suffix_cons_of_ne (hkey : key :: P ≠ T) : T <:+ key :: P ↔ T <:+ P := by
  rw [List.suffix_cons_iff]
  exact or_iff_right (fun h => hkey h.symm)

theorem Skips.within (hkey : key :: P ≠ T) (h : Skips T (key :: P) a x) : Skips T P (within key a) x where
  goes := Goes.within hkey h.goes (fun st hpath => by rw [← hpath]; rfl)
  inks hr := (h.inks hr).within (h.goes hr).1 (fun _ _ => suffix_cons_of_ne hkey)

theorem Hits.within (hkey : key :: P ≠ T) (h : Hits once T (key :: P) a x before close) :
    Hits once T P (within key a) x before close where
  goes := Goes.within hkey h.goes (fun st hpath => by rw [← hpath]; rfl)
  out hT := h.out (hT.trans (List.suffix_cons key P))
  ends := h.ends
  inks honce hr := (h.inks honce hr).within (h.goes hr).1 (fun _ _ => Iff.rfl)

theorem Skips.marks (h : Skips (key :: P) (key :: P) a x) :
    Hits once (key :: P) P (CodeTree.within key a) x [] x.toList := by
  refine ⟨fun hr => ?_,no_suffix_self key P,Nat.le_refl _,fun _ hr => (h.inks hr).within (h.goes hr).1 (fun i hi =>
    iff_of_true (List.suffix_refl _) ⟨Nat.zero_le i,hi⟩)⟩
  obtain ⟨hfault,hrun⟩ := h.goes hr
  have hflow : CodeTree.within key a = ⟨.enter key :: (a.items ++ [.leave]),none⟩ := by
    unfold CodeTree.within Flow.append
    rw [hfault]
    rfl
  rw [hflow]
  refine ⟨rfl,fun st hpath heven => ⟨?_,hpath,st.move_even _⟩⟩
  subst hpath
  obtain ⟨hinner,-,-⟩ :=
    hrun { st with path := key :: st.path, found := true, topLeft := some st.position } rfl heven
  simp only [BoxSearch.run,BoxSearch.step,beq_self_eq_true,if_true]
  rw [BoxSearch.run_append hinner]
  simp only [BoxSearch.run,BoxSearch.step,BoxSearch.move,beq_self_eq_true,Bool.and_true,List.tail_cons]
  cases hbottom : st.bottomRight <;> simp [BoxSearch.mark,BoxSearch.move,hbottom] <;> rfl

end Flows

end Taking

section Traces
variable {T P : List Key} {key : Key}

theorem suffix_unique {key' : Key} (h : key :: P <:+ T) (h' : key' :: P <:+ T) : key' = key := by
  have hsame := (List.suffix_of_suffix_length_le h' h (Nat.le_refl _)).eq_of_length rfl
  injection hsame

theorem no_suffix_cons (h : ¬ key :: P <:+ T) (key' : Key) : ¬ key' :: key :: P <:+ T := by
  intro h'
  exact h ((List.suffix_cons key' (key :: P)).trans h')

theorem ne_of_no_suffix (h : ¬ key :: P <:+ T) : key :: P ≠ T := by
  rintro rfl
  exact h (List.suffix_refl _)

/-- The text of a datum goes by where the target does not lie in it. -/
def GoesBy (d : Datum) : Prop :=
  ∀ ⦃T P : List Key⦄ ⦃x : String⦄, (∀ key, ¬ key :: P <:+ T) → d.render = .ok x → Skips T P d.trace x

theorem GoesBy.within (h : GoesBy d) (hkey : ¬ key :: P <:+ T) (hx : d.render = .ok x) : Skips T P (within key d.trace) x :=
  (h (no_suffix_cons hkey) hx).within (ne_of_no_suffix hkey)

theorem items_skip (ih : ∀ d ∈ ds, GoesBy d) (hkey : ∀ m : Nat, i ≤ m → ¬ .index (m : Int) :: P <:+ T)
    (hx : Spells (Datum.traceItems i ds) x) : Skips T P (Datum.traceItems i ds) x := by
  induction ds generalizing i x with
  | nil =>
    cases Spells.nil.mp hx
    exact Skips.nil
  | cons d ds ihds =>
    obtain ⟨y,z,hy,hz,rfl⟩ := Spells.append.mp hx
    have hd := (ih d List.mem_cons_self).within (hkey i (Nat.le_refl i)) (render_ok.mpr (Spells.between.mp hy))
    have hds := ihds (List.forall_mem_cons.mp ih).2 (fun m hm => hkey m (by omega)) hz
    exact hd.append hds

theorem Flow.flatMap_cons {α β : Type} (f : α → Flow β) (a : α) (as : List α) :
    Flow.flatMap f (a :: as) = (f a).append (Flow.flatMap f as) := by
  conv_lhs => unfold Flow.flatMap
  cases f a with
  | mk items fault => cases fault <;> rfl

/-- A slot in which the target does not lie. A keyword has nothing below it. -/
def Slot.Clear (T P : List Key) : Slot → Prop
  | .constant text _ => .name text :: P ≠ T
  | .field _ f _ => ¬ .name f.word :: P <:+ T

theorem Slot.clear_of_suffix (h : ¬ .name slot.word :: P <:+ T) : slot.Clear T P := by
  cases slot with
  | constant text shown => exact ne_of_no_suffix h
  | field form f shown => exact h

section Slots
variable {fields : List (String × Datum)} (ih : ∀ word d, lookupLast word fields = some d → GoesBy d)

theorem slotEvents_within (hform : form ≠ .text) (hshown : (Slot.field form f shown).shown.holds fields = true)
    (hd : lookupLast f.word fields = some d) :
    slotEvents fields (Datum.traceFields fields) (.field form f shown) = within (.name f.word) d.trace := by
  have htrace : lookupLast f.word (Datum.traceFields fields) = some d.trace := by rw [lookupLast_traceFields,hd]; rfl
  unfold slotEvents
  rw [if_pos hshown]
  cases form with
  | text => exact absurd rfl hform
  | _ =>
    dsimp only
    rw [htrace]
    rfl

theorem slotEvents_constant {text : String} {traces : List (String × Flow Event)}
    (hshown : (Slot.constant text shown).shown.holds fields = true) :
    slotEvents fields traces (.constant text shown) = within (.name text) (.ofList [.text (.text text)]) := by
  unfold slotEvents
  rw [if_pos hshown]
  rfl

include ih in
theorem slot_skips (hclear : slot.Clear T P) (hx : SlotSpells fields slot x) :
    Skips T P (slotEvents fields (Datum.traceFields fields) slot) x := by
  by_cases hshown : slot.shown.holds fields = true
  · rw [SlotSpells.shown hshown] at hx
    cases slot with
    | constant text shown =>
      cases hx
      rw [slotEvents_constant hshown]
      exact (Skips.text _).within hclear
    | field form f shown =>
      by_cases hform : form = .text
      · subst hform
        have hd : lookupLast f.word fields = some (.text x) := hx
        unfold slotEvents
        rw [if_pos hshown]
        dsimp only
        rw [hd]
        exact (Skips.text x).within (ne_of_no_suffix hclear)
      · have hd : ∃ d, lookupLast f.word fields = some d ∧ d.render = .ok x := by
          cases form <;> first | exact absurd rfl hform | exact hx
        obtain ⟨d,hd,hx⟩ := hd
        rw [slotEvents_within hform hshown hd]
        exact (ih _ d hd).within hclear hx
  · rw [SlotSpells.hidden hshown] at hx
    subst hx
    unfold slotEvents
    rw [if_neg hshown]
    exact Skips.nil

include ih in
theorem slots_skip (hkeys : ∀ slot ∈ slots, slot.Clear T P) (hxs : List.Forall₂ (SlotSpells fields) slots xs) :
    Skips T P (.flatMap (slotEvents fields (Datum.traceFields fields)) slots) (String.join xs) := by
  induction hxs with
  | nil => exact Skips.nil
  | @cons slot x slots xs hx _ ihs =>
    rw [Flow.flatMap_cons,String.join_cons]
    have hslot := slot_skips ih (hkeys slot List.mem_cons_self) hx
    exact hslot.append (ihs (List.forall_mem_cons.mp hkeys).2)

include ih in
theorem slots_after {before : List Slot} (hkeys : ∀ slot ∈ before, slot.Clear T P)
    (hxs : List.Forall₂ (SlotSpells fields) (before ++ slots) xs) :
    ∃ l ys, String.join xs = l ++ String.join ys ∧ List.Forall₂ (SlotSpells fields) slots ys ∧ ∀ once b c,
      Hits once T P (.flatMap (slotEvents fields (Datum.traceFields fields)) slots) (String.join ys) b c →
      Hits once T P (.flatMap (slotEvents fields (Datum.traceFields fields)) (before ++ slots)) (String.join xs)
        (l.toList ++ b) (l.toList ++ c) := by
  induction before generalizing xs with
  | nil => exact ⟨"",xs,by simp,hxs,fun _ _ _ h => h⟩
  | cons slot before ihb =>
    cases hxs with
    | @cons _ x _ xs hx hxs =>
      obtain ⟨l,ys,hjoin,hys,hhits⟩ := ihb (List.forall_mem_cons.mp hkeys).2 hxs
      have hslot := slot_skips ih (hkeys slot List.mem_cons_self) hx
      refine ⟨x ++ l,ys,by rw [String.join_cons,hjoin,String.append_assoc],hys,fun once b c h => ?_⟩
      rw [List.cons_append,Flow.flatMap_cons,String.join_cons,String.toList_append,List.append_assoc,List.append_assoc]
      exact hslot.hits (hhits once b c h)

end Slots

/-- Where the target does not lie in a datum its text goes by. -/
theorem trace_skips (d : Datum) : GoesBy d := by
  induction d using Datum.induct with
  | list ds ih =>
    intro T P x hkey hx
    rw [render_ok,Datum.trace] at hx
    rw [Datum.trace]
    exact items_skip ih (fun m _ => hkey _) hx
  | record fields ih =>
    intro T P x hkey hx
    obtain ⟨layout,xs,hlayout,hxs,rfl⟩ := render_record.mp hx
    rw [Datum.trace,hlayout]
    exact slots_skip (fun _ _ hd => ih _ (lookupLast_mem hd)) (fun slot _ => Slot.clear_of_suffix (hkey _)) hxs
  | _ =>
    intro T P x hkey hx
    rw [render_ok] at hx
    exact absurd hx Spells.fail

end Traces

section Parts

/-- A part of a datum that its text shows, and the keys that lead there. -/
inductive Datum.Part : Datum → List Key → Datum → Prop where
  | here (d : Datum) : Datum.Part d [] d
  | item {ds : List Datum} {j : Nat} {d e : Datum} {keys : List Key} (member : ds[j]? = some d)
      (rest : Datum.Part d keys e) : Datum.Part (.list ds) (.index j :: keys) e
  | slot {fields : List (String × Datum)} {layout : List Slot} {form : Form} {f : Field} {shown : Shown} {d e : Datum}
      {keys : List Key} (named : recordLayout fields = .ok layout) (member : .field form f shown ∈ layout)
      (isPart : form.isText = false) (holds : shown.holds fields = true) (held : lookupLast f.word fields = some d)
      (rest : Datum.Part d keys e) : Datum.Part (.record fields) (.name f.word :: keys) e

theorem Datum.step_index (h : ds[j]? = some d) : (Datum.list ds).step (.index j) = .ok d := by
  obtain ⟨hlt,-⟩ := List.getElem?_eq_some_iff.mp h
  have hindex : indexIn? ds.length (j : Int) = some j := by
    have hpos : ¬ (j : Int) < 0 := by omega
    simp [indexIn?,hpos,hlt]
  simp only [Datum.step,hindex,Option.bind_some,h]

theorem Datum.step_name (h : lookupLast word fields = some d) : (Datum.record fields).step (.name word) = .ok d := by
  simp only [Datum.step,h]

theorem Datum.Part.follow (h : d.Part keys e) : d.follow keys = .ok e := by
  induction h with
  | here d => rfl
  | @item ds j d e keys member rest ih =>
    rw [Datum.follow,Datum.step_index member]
    exact ih
  | @slot fields layout form f shown d e keys named member isPart holds held rest ih =>
    rw [Datum.follow,Datum.step_name held]
    exact ih

/-- Where a slot of a layout is the only one of its name. Alone the name of an alias is also that of the
keyword before it. -/
def Slot.isLone (layout : List Slot) : Slot → Bool
  | .field form f shown => form.isText ||
      layout.filter (·.word == f.word) ==
        if f = .alias then [.constant f.word shown,.field form f shown] else [.field form f shown]
  | .constant _ _ => true

theorem layout_lone (k : Kind) : ∀ slot ∈ k.layout, slot.isLone k.layout = true := by
  cases k <;> decide +kernel

section Layouts
variable {k : Kind} {form : Form} {f : Field} {shown : Shown}

theorem layout_apart (hslot : .field form f shown ∈ k.layout) (hform : form.isText = false) (hf : f ≠ .alias) :
    ∃ l₁ l₂, k.layout = l₁ ++ .field form f shown :: l₂ ∧ (∀ slot ∈ l₁, slot.word ≠ f.word) ∧
      ∀ slot ∈ l₂, slot.word ≠ f.word := by
  have hlone := layout_lone k _ hslot
  simp only [Slot.isLone,hform,Bool.false_or,beq_iff_eq,if_neg hf] at hlone
  obtain ⟨l₁,l₂,hlayout,h₁,-,h₂⟩ := List.filter_eq_cons_iff.mp hlone
  exact ⟨l₁,l₂,hlayout,by simpa using h₁,by simpa using h₂⟩

theorem layout_alias (hslot : .field form .alias shown ∈ k.layout) (hform : form.isText = false) :
    ∃ m₁ m₂ m₃, k.layout = m₁ ++ .constant "as" shown :: (m₂ ++ .field form .alias shown :: m₃) ∧
      (∀ slot ∈ m₁, slot.word ≠ Field.alias.word) ∧ (∀ slot ∈ m₂, slot.word ≠ Field.alias.word) ∧ ∀ slot ∈ m₃, slot.word ≠ Field.alias.word := by
  have hlone := layout_lone k _ hslot
  simp only [Slot.isLone,hform,Bool.false_or,beq_iff_eq,if_pos] at hlone
  obtain ⟨m₁,l₂,hlayout,h₁,-,hrest⟩ := List.filter_eq_cons_iff.mp hlone
  obtain ⟨m₂,m₃,rfl,h₂,-,h₃⟩ := List.filter_eq_cons_iff.mp hrest
  exact ⟨m₁,m₂,m₃,hlayout,by simpa using h₁,by simpa using h₂,by simpa using h₃⟩

theorem recordLayout_kind {layout : List Slot} (h : recordLayout fields = .ok layout) : ∃ k : Kind, layout = k.layout := by
  unfold recordLayout at h
  split at h
  · cases h
  · split at h
    · next k _ => exact ⟨k,(Except.ok.inj h).symm⟩
    · cases h
  all_goals cases h

end Layouts

theorem Form.ne_text (h : form.isText = false) : form ≠ .text := by
  rintro rfl
  cases h

theorem SlotSpells.field (hform : form.isText = false) (hshown : shown.holds fields = true) :
    SlotSpells fields (.field form f shown) x ↔ ∃ d, lookupLast f.word fields = some d ∧ d.render = .ok x := by
  rw [SlotSpells.shown hshown]
  cases form <;> first | exact Iff.rfl | cases hform

section Lifting
variable {T P : List Key} {fields : List (String × Datum)} {form : Form} {f : Field} {shown : Shown} {d : Datum}
  {x : String}

theorem ne_of_below {key : Key} (hkeys : keys ≠ []) : key :: P ≠ keys.reverse ++ key :: P := by
  intro h
  have hlen := congrArg List.length h
  rw [List.length_append,List.length_reverse] at hlen
  have hpos := List.length_pos_iff.mpr hkeys
  omega

theorem clear_of_ne (hT : .name word :: P <:+ T) (h : slot.word ≠ word) : slot.Clear T P := by
  refine Slot.clear_of_suffix (fun hsuffix => h ?_)
  injection suffix_unique hT hsuffix

theorem layout_clear {k : Kind} (hslot : .field form f shown ∈ k.layout) (hform : form.isText = false)
    (hends : f = .alias → keys ≠ []) : ∃ l₁ l₂, k.layout = l₁ ++ .field form f shown :: l₂ ∧
      (∀ slot ∈ l₁, slot.Clear (keys.reverse ++ .name f.word :: P) P) ∧
      ∀ slot ∈ l₂, slot.Clear (keys.reverse ++ .name f.word :: P) P := by
  have hT : .name f.word :: P <:+ keys.reverse ++ .name f.word :: P := List.suffix_append _ _
  by_cases halias : f = .alias
  · subst halias
    obtain ⟨m₁,m₂,m₃,hlayout,h₁,h₂,h₃⟩ := layout_alias hslot hform
    refine ⟨m₁ ++ .constant "as" shown :: m₂,m₃,by simpa using hlayout,?_,fun s hs => clear_of_ne hT (h₃ s hs)⟩
    intro slot hmem
    rcases List.mem_append.mp hmem with hmem | hmem
    · exact clear_of_ne hT (h₁ slot hmem)
    rcases List.mem_cons.mp hmem with rfl | hmem
    · exact ne_of_below (hends rfl)
    · exact clear_of_ne hT (h₂ slot hmem)
  · obtain ⟨l₁,l₂,hlayout,h₁,h₂⟩ := layout_apart hslot hform halias
    exact ⟨l₁,l₂,hlayout,fun s hs => clear_of_ne hT (h₁ s hs),fun s hs => clear_of_ne hT (h₂ s hs)⟩

theorem item_lifts (hj : ds[j]? = some d) (hT : .index ((i + j : Nat) : Int) :: P <:+ T)
    (hx : Spells (Datum.traceItems i ds) x) : ∃ l y r, x = l ++ (y ++ r) ∧ d.render = .ok y ∧ ∀ once b c,
      Hits once T P (within (.index ((i + j : Nat) : Int)) d.trace) y b c →
        Hits once T P (Datum.traceItems i ds) x (l.toList ++ b) (l.toList ++ c) := by
  have hother : ∀ m : Nat, m ≠ i + j → ¬ .index (m : Int) :: P <:+ T := by
    intro m hm hsuffix
    have heq := suffix_unique hT hsuffix
    simp only [Key.index.injEq,Int.natCast_inj] at heq
    exact hm heq
  induction ds generalizing i j x with
  | nil => cases hj
  | cons e ds ih =>
    obtain ⟨y,z,hy,hz,rfl⟩ := Spells.append.mp hx
    have hy' := render_ok.mpr (Spells.between.mp hy)
    cases j with
    | zero =>
      obtain rfl : e = d := Option.some.inj hj
      have hrest := items_skip (fun e _ => trace_skips e) (fun m hm => hother m (by omega)) hz
      exact ⟨"",y,z,by simp,hy',fun _ _ _ h => h.append hrest⟩
    | succ j =>
      have hsame : i + (j + 1) = i + 1 + j := by omega
      rw [hsame] at hT hother ⊢
      obtain ⟨l,u,r,rfl,hu,hhits⟩ := ih hj hT hz hother
      have hskip := (trace_skips e).within (hother i (by omega)) hy'
      refine ⟨y ++ l,u,r,by rw [String.append_assoc],hu,fun once b c h => ?_⟩
      rw [String.toList_append,List.append_assoc,List.append_assoc]
      exact hskip.hits (hhits once b c h)

theorem slot_lifts {l₁ l₂ : List Slot} (hlayout : recordLayout fields = .ok (l₁ ++ .field form f shown :: l₂))
    (h₁ : ∀ slot ∈ l₁, slot.Clear T P) (h₂ : ∀ slot ∈ l₂, slot.Clear T P) (hform : form.isText = false)
    (hshown : shown.holds fields = true) (hd : lookupLast f.word fields = some d)
    (hx : (Datum.record fields).render = .ok x) : ∃ l y r, x = l ++ (y ++ r) ∧ d.render = .ok y ∧ ∀ once b c,
      Hits once T P (within (.name f.word) d.trace) y b c →
        Hits once T P (Datum.record fields).trace x (l.toList ++ b) (l.toList ++ c) := by
  obtain ⟨layout,xs,hlayout',hxs,rfl⟩ := render_record.mp hx
  rw [hlayout] at hlayout'
  cases hlayout'
  have hall : ∀ word d, lookupLast word fields = some d → GoesBy d := fun _ d _ => trace_skips d
  obtain ⟨l,ys,hjoin,hys,hhits⟩ := slots_after hall h₁ hxs
  cases hys with
  | @cons _ y _ ys hy hys =>
    obtain ⟨d',hd',hy⟩ := (SlotSpells.field hform hshown).mp hy
    rw [hd] at hd'
    cases hd'
    refine ⟨l,y,String.join ys,by rw [hjoin,String.join_cons],hy,fun once b c h => ?_⟩
    rw [Datum.trace,hlayout]
    refine hhits once b c ?_
    rw [Flow.flatMap_cons,String.join_cons,slotEvents_within (Form.ne_text hform) hshown hd]
    exact h.append (slots_skip hall h₂ hys)

/-- A keyword and the field of its name are both marked, and the box begins at the one and ends at the other. -/
theorem alias_hits {m₁ m₂ m₃ : List Slot} (hlayout : recordLayout fields =
      .ok (m₁ ++ .constant "as" shown :: (m₂ ++ .field form .alias shown :: m₃)))
    (h₁ : ∀ slot ∈ m₁, slot.Clear (.name "as" :: P) P) (h₂ : ∀ slot ∈ m₂, slot.Clear (.name "as" :: P) P)
    (h₃ : ∀ slot ∈ m₃, slot.Clear (.name "as" :: P) P) (hform : form.isText = false)
    (hshown : shown.holds fields = true) (hd : lookupLast "as" fields = some d)
    (hx : (Datum.record fields).render = .ok x) : ∃ l y r close, x = l ++ (y ++ r) ∧ d.render = .ok y ∧
      close <+: l.toList ∧ Hits false (.name "as" :: P) P (Datum.record fields).trace x l.toList close := by
  obtain ⟨layout,xs,hlayout',hxs,rfl⟩ := render_record.mp hx
  rw [hlayout] at hlayout'
  cases hlayout'
  have hall : ∀ word d, lookupLast word fields = some d → GoesBy d := fun _ d _ => trace_skips d
  obtain ⟨l,ys,hjoin,hys,hhits⟩ := slots_after hall h₁ hxs
  cases hys with
  | @cons _ word _ ys hword hys =>
    rw [SlotSpells.shown hshown] at hword
    cases hword
    obtain ⟨gap,zs,hjoin',hzs,hhits'⟩ := slots_after hall h₂ hys
    cases hzs with
    | @cons _ y _ zs hy hzs =>
      obtain ⟨d',hd',hy⟩ := (SlotSpells.field hform hshown).mp hy
      cases hd.symm.trans hd'
      have hfield : Hits false (.name "as" :: P) P (within (.name "as") d.trace) y [] y.toList :=
        (trace_skips d (no_suffix_self · _) hy).marks
      have hkeyword : Hits false (.name "as" :: P) P (slotEvents fields (Datum.traceFields fields) (.constant "as" shown))
          "as" [] "as".toList := by
        rw [slotEvents_constant hshown]
        exact (Skips.text "as").marks
      have hrest := hhits' _ _ _ (by
        rw [Flow.flatMap_cons,String.join_cons,slotEvents_within (Form.ne_text hform) hshown hd']
        exact hfield.append (slots_skip hall h₃ hzs))
      have hboth := hhits _ _ _ (by
        rw [Flow.flatMap_cons,String.join_cons]
        exact hkeyword.hits hrest)
      refine ⟨l ++ ("as" ++ gap),y,String.join zs,l.toList ++ "as".toList,?_,hy,?_,?_⟩
      · rw [hjoin,String.join_cons,hjoin',String.join_cons]
        simp only [String.append_assoc]
      · exact ⟨gap.toList,by simp only [String.toList_append,List.append_assoc]⟩
      · rw [Datum.trace,hlayout]
        simpa only [String.toList_append,List.append_assoc,List.append_nil] using hboth

end Lifting

/-- Whether the last of some keys is no alias. -/
def endsPlainly (keys : List Key) : Bool := keys.getLast? != some (.name "as")

/-- A part lies somewhere in the text that a flow spells, and its box was taken down: from the first to the last
position of the part, or with an end before its beginning. -/
def Lies (T P : List Key) (flow : Flow Event) (x : String) (e : Datum) (plainly : Bool) : Prop :=
  ∃ s before after close, e.render = .ok s ∧ x.toList = before ++ (s.toList ++ after) ∧
    Hits plainly T P flow x before close ∧ if plainly then close = before ++ s.toList else close <+: before

section Lying
variable {T P : List Key} {flow : Flow Event} {x : String} {d e : Datum} {plainly : Bool} {key : Key} {keys : List Key}

theorem Lies.within (h : Lies T (key :: P) flow x e plainly) (hkey : key :: P ≠ T) :
    Lies T P (within key flow) x e plainly := by
  obtain ⟨s,before,after,close,hs,hx,hhits,hclose⟩ := h
  exact ⟨s,before,after,close,hs,hx,hhits.within hkey,hclose⟩

theorem Lies.lift {whole : Flow Event} {l y r : String} (h : Lies T P flow y e plainly) (hx : x = l ++ (y ++ r))
    (hlift : ∀ once b c, Hits once T P flow y b c → Hits once T P whole x (l.toList ++ b) (l.toList ++ c)) :
    Lies T P whole x e plainly := by
  obtain ⟨s,before,after,close,hs,hy,hhits,hclose⟩ := h
  refine ⟨s,l.toList ++ before,after ++ r.toList,l.toList ++ close,hs,?_,hlift _ _ _ hhits,?_⟩
  · simp only [hx,String.toList_append,hy,List.append_assoc]
  · cases plainly with
    | true => exact (congrArg (l.toList ++ ·) hclose).trans (List.append_assoc _ _ _).symm
    | false => exact (List.prefix_append_right_inj _).mpr hclose

theorem lies_within (hrest : d.Part keys e) (hkey : keys = [] → endsPlainly [key] = true) (hx : d.render = .ok x)
    (ih : keys ≠ [] → Lies (keys.reverse ++ key :: P) (key :: P) d.trace x e (endsPlainly keys)) :
    Lies (keys.reverse ++ key :: P) P (within key d.trace) x e (endsPlainly (key :: keys)) := by
  cases keys with
  | nil =>
    cases hrest
    rw [hkey rfl]
    exact ⟨x,[],[],x.toList,hx,by simp,(trace_skips d (no_suffix_self · _) hx).marks,rfl⟩
  | cons key' keys =>
    have hends : endsPlainly (key :: key' :: keys) = endsPlainly (key' :: keys) := by
      unfold endsPlainly
      rw [List.getLast?_cons_cons]
    rw [hends]
    exact (ih (List.cons_ne_nil _ _)).within (ne_of_below (List.cons_ne_nil _ _))

end Lying

theorem Datum.Part.lies (h : d.Part keys e) (hkeys : keys ≠ []) {P : List Key} (hx : d.render = .ok x) :
    Lies (keys.reverse ++ P) P d.trace x e (endsPlainly keys) := by
  induction h generalizing P x with
  | here d => exact absurd rfl hkeys
  | @item ds j d e keys member rest ih =>
    rw [render_ok,Datum.trace] at hx
    rw [List.reverse_cons,List.append_assoc,List.singleton_append]
    obtain ⟨l,y,r,heq,hy,hlift⟩ := item_lifts (i := 0) (T := keys.reverse ++ .index j :: P) (P := P) member
      (by rw [Nat.zero_add]; exact List.suffix_append _ _) hx
    rw [Nat.zero_add] at hlift
    exact (lies_within rest (fun _ => rfl) hy (fun hne => ih hne hy)).lift heq hlift
  | @slot fields layout form f shown d e keys named member isPart holds held rest ih =>
    rw [List.reverse_cons,List.append_assoc,List.singleton_append]
    have hT : .name f.word :: P <:+ keys.reverse ++ .name f.word :: P := List.suffix_append _ _
    obtain ⟨k,rfl⟩ := recordLayout_kind named
    by_cases hends : f = .alias → keys ≠ []
    · obtain ⟨l₁,l₂,hlayout,h₁,h₂⟩ := layout_clear (P := P) member isPart hends
      rw [hlayout] at named
      obtain ⟨l,y,r,heq,hy,hlift⟩ := slot_lifts named h₁ h₂ isPart holds held hx
      refine (lies_within rest (fun hnil => ?_) hy (fun hne => ih hne hy)).lift heq hlift
      have hword : f.word ≠ Field.alias.word := fun hword => hends (Field.word_injective hword) hnil
      exact bne_iff_ne.mpr (fun hlast => hword (Key.name.inj (Option.some.inj hlast)))
    · obtain ⟨rfl,rfl⟩ : f = .alias ∧ keys = [] := by simpa using hends
      cases rest
      obtain ⟨m₁,m₂,m₃,hlayout,h₁,h₂,h₃⟩ := layout_alias member isPart
      rw [hlayout] at named
      obtain ⟨l,y,r,close,rfl,hy,hclose,hhits⟩ := alias_hits named (fun s hs => clear_of_ne hT (h₁ s hs))
        (fun s hs => clear_of_ne hT (h₂ s hs)) (fun s hs => clear_of_ne hT (h₃ s hs)) isPart holds held hx
      exact ⟨y,l.toList,r.toList,close,hy,by simp only [String.toList_append],hhits,hclose⟩

theorem Hits.boxAt {once : Bool} {before close : List Char} (h : Hits once keys.reverse [] d.trace x before close)
    (hr : '\r' ∉ x.toList) : d.boxAt keys = .ok ⟨Position.start.along before,(Position.start.along close).left⟩ := by
  obtain ⟨hfault,hrun⟩ := h.goes hr
  obtain ⟨hrun,-,-⟩ := hrun (.initial keys) rfl rfl
  unfold Datum.boxAt
  dsimp only
  rw [hrun,hfault]
  rfl

/-- Cutting the text of a datum along the box of a part gives the text of the part, unless the part is an alias:
the box of an alias is empty. -/
theorem Datum.Part.cut_boxAt (h : d.Part keys e) (hkeys : keys ≠ []) (hx : d.render = .ok x) (hr : '\r' ∉ x.toList) :
    ∃ s box, e.render = .ok s ∧ s.toList <:+: x.toList ∧ d.boxAt keys = .ok box ∧
      box.cut x = if endsPlainly keys then s else "" := by
  obtain ⟨s,before,after,close,hs,htext,hhits,hclose⟩ := h.lies hkeys (P := []) hx
  rw [List.append_nil] at hhits
  refine ⟨s,⟨Position.start.along before,(Position.start.along close).left⟩,hs,⟨before,after,?_⟩,hhits.boxAt hr,?_⟩
  · rw [htext,List.append_assoc]
  · have hsplit : x = String.ofList (before ++ s.toList ++ after) := by
      rw [List.append_assoc,← htext,String.ofList_toList]
    cases hends : endsPlainly keys with
    | true =>
      rw [hends] at hclose
      obtain rfl : close = before ++ s.toList := hclose
      rw [hsplit,Box.cut_between,String.ofList_toList]
      rfl
    | false =>
      rw [hends] at hclose
      obtain ⟨gap,rfl⟩ : close <+: before := hclose
      rw [hsplit]
      exact Box.cut_crossed close gap _

theorem Datum.cut_box (hx : d.render = .ok x) (hr : '\r' ∉ x.toList) : ∃ box, d.box = .ok box ∧ box.cut x = x := by
  obtain ⟨hfault,hrun⟩ := (trace_skips d (T := []) (P := []) (by simp) hx).goes hr
  obtain ⟨hrun,-,-⟩ := hrun (.initial []) rfl rfl
  refine ⟨⟨.start,(Position.start.along x.toList).left⟩,?_,?_⟩
  · unfold Datum.box Datum.boxAt
    dsimp only
    rw [List.reverse_nil,hrun,hfault]
    rfl
  · have hcut := Box.cut_between [] x.toList []
    rwa [List.nil_append,List.append_nil,String.ofList_toList] at hcut

end Parts

end CodeTree
