import Mathlib.Tactic.Common
import CodeTree.HelpTokens

/-! # Help text is cut without loss

Each rule takes at least one character and no more than there are, in every one of its tokens. So the tokens of a
text are the text again, none of them is empty, and the bound on their number is never reached.
-/
namespace CodeTree.HelpTokens
open CodeTree.Text
variable {s rest : List Char} {parts : List (TokenSort × Nat)} {n : Nat} {quote : Char}

/-- The characters that the parts of a rule take together. -/
def taken : List (TokenSort × Nat) → Nat
  | [] => 0
  | part :: parts => part.2 + taken parts

/-- Parts that a text can be cut into: each takes something, and the text is long enough for all. -/
structure Cuts (parts : List (TokenSort × Nat)) (s : List Char) : Prop where
  pos : ∀ part ∈ parts, 0 < part.2
  le : taken parts ≤ s.length

theorem Cuts.single {sort : TokenSort} (hpos : 0 < n) (hle : n ≤ s.length) : Cuts [(sort,n)] s :=
  ⟨by simpa using hpos,by simpa [taken] using hle⟩

theorem cut_texts (parts : List (TokenSort × Nat)) (s : List Char) :
    (cut parts s).1.flatMap Token.text ++ (cut parts s).2 = s := by
  induction parts generalizing s with
  | nil => rfl
  | cons part parts ih =>
    simp only [cut,List.flatMap_cons,List.append_assoc,ih]
    exact List.take_append_drop part.2 s

theorem cut_rest (parts : List (TokenSort × Nat)) (s : List Char) : (cut parts s).2 = s.drop (taken parts) := by
  induction parts generalizing s with
  | nil => simp [cut,taken]
  | cons part parts ih =>
    simp only [cut,ih,List.drop_drop]
    simp [taken]

theorem Cuts.texts_ne_nil (h : Cuts parts s) : ∀ token ∈ (cut parts s).1, token.text ≠ [] := by
  induction parts generalizing s with
  | nil => simp [cut]
  | cons part parts ih =>
    obtain ⟨hpos,hle⟩ := h
    have hfirst : 0 < part.2 := hpos part List.mem_cons_self
    simp only [taken] at hle
    intro token htoken
    rcases List.mem_cons.mp htoken with rfl | htoken
    · intro hnil
      rcases List.take_eq_nil_iff.mp hnil with hzero | hempty
      · omega
      · rw [hempty,List.length_nil] at hle
        omega
    · refine ih ⟨fun q hq => hpos q (List.mem_cons_of_mem _ hq),?_⟩ token htoken
      rw [List.length_drop]
      omega

theorem quotedLength_le (h : quotedLength quote s = some n) : n ≤ s.length := by
  fun_induction quotedLength quote s generalizing n with
  | case1 => cases h
  | case2 rest => cases h
  | case3 c rest hne ih =>
    obtain ⟨m,hm,rfl⟩ := Option.map_eq_some_iff.mp h
    have := ih hm
    simp only [List.length_cons]
    omega
  | case4 c rest =>
    cases h
    simp
  | case5 => cases h
  | case6 c rest _ _ _ ih =>
    obtain ⟨m,hm,rfl⟩ := Option.map_eq_some_iff.mp h
    have := ih hm
    simp only [List.length_cons]
    omega

theorem classNameLength_bounds (h : classNameLength s = some n) : 0 < n ∧ n ≤ s.length := by
  have hmem := List.mem_of_find?_eq_some h
  have hlong := List.find?_some h
  have hword := (List.takeWhile_prefix isWord (l := s)).length_le
  simp only [List.mem_reverse,List.mem_range] at hmem
  simp only [Bool.and_eq_true,decide_eq_true_eq] at hlong
  omega

theorem word_bounds {words : List (List Char)} {word : List Char} (hwords : ∀ word ∈ words, 0 < word.length)
    (h : words.find? (·.isPrefixOf s) = some word) : 0 < word.length ∧ word.length ≤ s.length := by
  refine ⟨hwords word (List.mem_of_find?_eq_some h),?_⟩
  have hprefix : word.isPrefixOf s = true := List.find?_some (p := fun x : List Char => x.isPrefixOf s) h
  exact (List.isPrefixOf_iff_prefix.mp hprefix).length_le

theorem run_bounds (q : Char → Bool) (c : Char) (rest : List Char) :
    0 < 1 + (rest.takeWhile q).length ∧ 1 + (rest.takeWhile q).length ≤ (c :: rest).length := by
  have := (List.takeWhile_prefix q (l := rest)).length_le
  rw [List.length_cons]
  omega

theorem rule_cuts (s : List Char) : Cuts (rule s) s := by
  have hconstants : ∀ word ∈ constants, 0 < word.length := by decide
  have hoperators : ∀ word ∈ operators, 0 < word.length := by decide
  unfold rule
  split
  · exact ⟨by simp,by simp [taken]⟩
  · next c rest =>
    split
    · exact .single (run_bounds _ c rest).1 (run_bounds _ c rest).2
    split
    · next n hquoted =>
      split at hquoted
      · exact .single (Nat.succ_pos n) (Nat.succ_le_succ (quotedLength_le hquoted))
      · cases hquoted
    split
    · next word hword => exact .single (word_bounds hconstants hword).1 (word_bounds hconstants hword).2
    split
    · next n hstarred =>
      split at hstarred
      · have := (classNameLength_bounds hstarred).2
        refine ⟨by simp,?_⟩
        simp only [taken,List.length_cons]
        omega
      · cases hstarred
    split
    · next n hname => exact .single (classNameLength_bounds hname).1 (classNameLength_bounds hname).2
    split
    · next word hword => exact .single (word_bounds hoperators hword).1 (word_bounds hoperators hword).2
    split
    · exact .single (run_bounds _ c rest).1 (run_bounds _ c rest).2
    split
    · exact .single (run_bounds _ c rest).1 (run_bounds _ c rest).2
    · exact .single Nat.one_pos (Nat.succ_le_succ (Nat.zero_le _))

theorem rule_ne_nil (c : Char) (rest : List Char) : rule (c :: rest) ≠ [] := by
  unfold rule
  dsimp only
  repeat' split
  all_goals exact List.cons_ne_nil _ _

/-- What is left after a rule is shorter. -/
theorem rule_shortens (c : Char) (rest : List Char) : (cut (rule (c :: rest)) (c :: rest)).2.length ≤ rest.length := by
  have hcuts := rule_cuts (c :: rest)
  obtain ⟨part,parts,hparts⟩ := List.exists_cons_of_ne_nil (rule_ne_nil c rest)
  have hfirst : 0 < part.2 := hcuts.pos part (by simp [hparts])
  rw [cut_rest,List.length_drop,List.length_cons,hparts,taken]
  omega

/-- Enough fuel cuts a text to its end, and more changes nothing. -/
theorem tokensFrom_all {fuel more : Nat} (h : s.length ≤ fuel) (hmore : fuel ≤ more) :
    (tokensFrom fuel s).flatMap Token.text = s ∧ (∀ token ∈ tokensFrom fuel s, token.text ≠ []) ∧
      tokensFrom more s = tokensFrom fuel s := by
  induction fuel generalizing s more with
  | zero =>
    obtain rfl := List.eq_nil_of_length_eq_zero (Nat.le_zero.mp h)
    cases more <;> simp [tokensFrom]
  | succ fuel ih =>
    obtain ⟨more,rfl⟩ := Nat.exists_eq_add_of_le' (Nat.lt_of_lt_of_le fuel.succ_pos hmore)
    cases s with
    | nil => simp [tokensFrom]
    | cons c rest =>
      have hshort := Nat.le_trans (rule_shortens c rest) (Nat.le_of_succ_le_succ h)
      obtain ⟨htexts,hne,hsame⟩ := ih hshort (Nat.le_of_succ_le_succ hmore)
      simp only [tokensFrom,List.flatMap_append,htexts,hsame,cut_texts,List.mem_append]
      refine ⟨trivial,?_,trivial⟩
      rintro token (htoken | htoken)
      · exact (rule_cuts _).texts_ne_nil token htoken
      · exact hne token htoken

/-- A text without the byte-order mark in front. -/
def unmarked (text : List Char) : List Char := if text.head?.map Char.toNat = some 65279 then text.tail else text

theorem prepare_eq (text : String) : prepare text =
    (((unixLines (unmarked text.toList)).dropWhile (· == '\n')).reverse.dropWhile (· == '\n')).reverse ++ ['\n'] := by
  unfold prepare unmarked
  cases text.toList <;> simp

/-- Line ends are taken away up to a character that is none. -/
theorem dropWhile_ends (s : List Char) : ∃ front, s = front ++ s.dropWhile (· == '\n') ∧ (∀ c ∈ front, c = '\n') ∧
    (s.dropWhile (· == '\n')).head? ≠ some '\n' := by
  refine ⟨s.takeWhile (· == '\n'),List.takeWhile_append_dropWhile.symm,?_,?_⟩
  · intro c hc
    exact eq_of_beq (List.all_eq_true.mp (List.all_takeWhile (l := s)) c hc)
  · intro hhead
    have hstop := List.head?_dropWhile_not (· == '\n') s
    rw [hhead] at hstop
    simp at hstop

/-- The text that is cut lies between the line ends at both ends of the text given. -/
theorem prepare_trims (text : String) : ∃ core before after, prepare text = core ++ ['\n'] ∧
    unixLines (unmarked text.toList) = before ++ core ++ after ∧ (∀ c ∈ before ++ after, c = '\n') ∧
    core.head? ≠ some '\n' ∧ core.getLast? ≠ some '\n' := by
  obtain ⟨before,hbefore,hends,hhead⟩ := dropWhile_ends (unixLines (unmarked text.toList))
  generalize hrest : (unixLines (unmarked text.toList)).dropWhile (· == '\n') = rest at hbefore hhead
  obtain ⟨after,hafter,hends',hlast⟩ := dropWhile_ends rest.reverse
  generalize hcore : rest.reverse.dropWhile (· == '\n') = core at hafter hlast
  have hsplit : rest = core.reverse ++ after.reverse := by rw [← List.reverse_append,← hafter,List.reverse_reverse]
  refine ⟨core.reverse,before,after.reverse,?_,?_,?_,?_,?_⟩
  · rw [prepare_eq,hrest,hcore]
  · rw [hbefore,hsplit,List.append_assoc]
  · simpa [or_imp,forall_and] using And.intro hends hends'
  · intro hc
    rw [hsplit,List.head?_append,hc] at hhead
    exact hhead rfl
  · rwa [List.getLast?_reverse]

/-- The tokens of a text are the text again, but for what is trimmed off its ends. -/
theorem tokens_lossless (text : String) : (tokens text).flatMap Token.text = prepare text ∧
    (∀ token ∈ tokens text, token.text ≠ []) ∧ (∀ fuel, (prepare text).length ≤ fuel → tokensFrom fuel (prepare text) = tokens text) ∧
    ∃ core before after, prepare text = core ++ ['\n'] ∧ unixLines (unmarked text.toList) = before ++ core ++ after ∧
      (∀ c ∈ before ++ after, c = '\n') ∧ core.head? ≠ some '\n' ∧ core.getLast? ≠ some '\n' := by
  obtain ⟨htexts,hne,-⟩ := tokensFrom_all (Nat.le_refl (prepare text).length) (Nat.le_refl _)
  exact ⟨htexts,hne,fun fuel h => (tokensFrom_all (Nat.le_refl _) h).2.2,prepare_trims text⟩

end CodeTree.HelpTokens
