import Mathlib.Data.List.Forall2
import ParallelBTree.Verified.Multiway

/-!
# Trees in bracket notation

A multiway tree written down as a sequence of tokens: an opening bracket, the
keys in order with the notation of a kid before each of them and of the last kid
behind them, and a closing bracket.  A machine with one stack frame for each
open bracket reads the sequence back (`read_tokens`), so the notation determines
the keys and the nesting of the tree (`Outline`), whatever its height.

`splitWords` undoes the other half of writing a tree down: words, each with a
separator in front of it.
-/

namespace ParallelBTree.Verified.Multiway

variable {α β : Type}

/-- What can be seen of a tree: the keys of every node, and its kids in
order. -/
inductive Outline (α : Type) where
  | node (keys : List α) (kids : List (Outline α))

def outline (n : Nat) (T : Tree α n) : Outline α := fold (fun _ => .node) n T

inductive Token (α : Type) where
  | opening
  | key (k : α)
  | closing
  deriving DecidableEq, Repr

/-- One node in bracket notation, from its keys and the notation of its kids. -/
def bracket (K : List α) (xs : List (List (Token α))) : List (Token α) :=
  .opening :: (interleave (K.map .key) xs ++ [.closing])

def tokens (n : Nat) (T : Tree α n) : List (Token α) :=
  fold (fun _ => bracket) n T

mutual

/-- The notation of a tree of which only the outline is known. -/
def Outline.tokens : Outline α → List (Token α)
  | .node K cs => bracket K (Outline.kidTokens cs)

def Outline.kidTokens : List (Outline α) → List (List (Token α))
  | [] => []
  | c :: cs => c.tokens :: Outline.kidTokens cs

end

theorem outline_succ (n : Nat) (T : Tree α (n + 1)) :
    outline (n + 1) T = .node T.keys (T.kids.map (outline n)) := rfl

theorem tokens_succ (n : Nat) (T : Tree α (n + 1)) :
    tokens (n + 1) T = bracket T.keys (T.kids.map (tokens n)) := rfl

/-- Without kids: the keys between the brackets. -/
theorem tokens_zero (T : Tree α 0) :
    tokens 0 T = [.opening] ++ (T.keys.map .key ++ [.closing]) := by
  have hbracket : tokens 0 T = bracket T.keys [] := rfl
  rw [hbracket, bracket, interleave_nil]
  rfl

/-- The notation of the last kid stands behind the last key. -/
theorem tokens_concat {n id : Nat} {K : List α} {D : List (Tree α n)}
    (h : K.length = D.length) (e : Tree α n) :
    tokens (n + 1) ⟨id, K, D ++ [e]⟩ =
      [.opening] ++ (interleave (K.map .key) (D.map (tokens n)) ++
        (tokens n e ++ [.closing])) := by
  have hlast := interleave_append (K.map .key) (D.map (tokens n)) []
    [tokens n e] (by simpa using h)
  rw [List.append_nil] at hlast
  rw [tokens_succ, bracket, List.map_append, List.map_singleton, hlast]
  simp [interleave]

/-- The notation depends on the outline only. -/
theorem tokens_outline (n : Nat) (T : Tree α n) :
    (outline n T).tokens = tokens n T := by
  induction n with
  | zero => rfl
  | succ n ih =>
      have hkids : ∀ C : List (Tree α n),
          Outline.kidTokens (C.map (outline n)) = C.map (tokens n) := by
        intro C
        induction C with
        | nil => rfl
        | cons c C ihC =>
            rw [List.map_cons, List.map_cons, Outline.kidTokens, ih c, ihC]
      rw [outline_succ, tokens_succ, Outline.tokens, hkids]

/-! ## Reading -/

/-- The keys and kids read so far of a node whose bracket is open. -/
abbrev Frame (α : Type) := List α × List (Outline α)

/-- One token; the innermost open bracket is on top of the stack. -/
def readToken : List (Frame α) → Token α → Option (List (Frame α))
  | st, .opening => some (([], []) :: st)
  | (ks, cs) :: st, .key k => some ((ks ++ [k], cs) :: st)
  | (ks, cs) :: (ks', cs') :: st, .closing =>
      some ((ks', cs' ++ [.node ks cs]) :: st)
  | _, _ => none

/-- The tree that a sequence of tokens denotes. -/
def readTokens (ts : List (Token α)) : Option (Outline α) :=
  match ts.foldlM readToken [([], [])] with
  | some [([], [c])] => some c
  | _ => none

/-- Reading `ts` adds the kid `c` to the innermost open bracket. -/
def Adds (ts : List (Token α)) (c : Outline α) : Prop :=
  ∀ ks cs st, ts.foldlM readToken ((ks, cs) :: st) =
    some ((ks, cs ++ [c]) :: st)

private theorem adds_keys (K : List α) :
    ∀ (ks : List α) (cs : List (Outline α)) (st : List (Frame α)),
      (K.map Token.key).foldlM readToken ((ks, cs) :: st) =
        some ((ks ++ K, cs) :: st) := by
  induction K with
  | nil => simp
  | cons k K ih =>
      intro ks cs st
      rw [List.map_cons, List.foldlM_cons]
      show (K.map Token.key).foldlM readToken ((ks ++ [k], cs) :: st) = _
      rw [ih, List.append_assoc]
      rfl

/-- Between the brackets of a node: the case split is that of `interleave`. -/
private theorem adds_interleave {xs : List (List (Token α))}
    {ys : List (Outline α)} (h : List.Forall₂ Adds xs ys) :
    ∀ (K ks : List α) (cs : List (Outline α)) (st : List (Frame α)),
      (interleave (K.map Token.key) xs).foldlM readToken ((ks, cs) :: st) =
        some ((ks ++ K, cs ++ ys) :: st) := by
  induction h with
  | nil =>
      intro K ks cs st
      rw [interleave_nil, adds_keys, List.append_nil]
  | @cons x y xs ys hx _ ih =>
      intro K ks cs st
      cases K with
      | nil =>
          rw [List.map_nil, interleave, List.foldlM_append, hx]
          show (interleave [] xs).foldlM readToken ((ks, cs ++ [y]) :: st) = _
          have hrest := ih [] ks (cs ++ [y]) st
          rw [List.map_nil] at hrest
          rw [hrest, List.append_assoc]
          rfl
      | cons k K =>
          rw [List.map_cons, interleave, List.foldlM_append, hx]
          show (interleave (K.map Token.key) xs).foldlM readToken
            ((ks ++ [k], cs ++ [y]) :: st) = _
          rw [ih, List.append_assoc, List.append_assoc]
          rfl

theorem adds_bracket {K : List α} {xs : List (List (Token α))}
    {ys : List (Outline α)} (h : List.Forall₂ Adds xs ys) :
    Adds (bracket K xs) (.node K ys) := by
  intro ks cs st
  rw [bracket, List.foldlM_cons]
  show (interleave (K.map Token.key) xs ++ [Token.closing]).foldlM readToken
    (([], []) :: (ks, cs) :: st) = _
  rw [List.foldlM_append, adds_interleave h]
  rfl

theorem adds_tokens (n : Nat) (T : Tree α n) :
    Adds (tokens n T) (outline n T) := by
  induction n with
  | zero => exact adds_bracket .nil
  | succ n ih =>
      rw [tokens_succ, outline_succ]
      apply adds_bracket
      rw [List.forall₂_map_left_iff, List.forall₂_map_right_iff,
        List.forall₂_same]
      exact fun c _ => ih c

/-- The notation of a tree reads as its outline. -/
theorem read_tokens (n : Nat) (T : Tree α n) :
    readTokens (tokens n T) = some (outline n T) := by
  rw [readTokens, adds_tokens]
  rfl

/-! ## Words -/

/-- Words, each with a separator in front of it. -/
def joinWords (sep : β) (ws : List (List β)) : List β := ws.flatMap (sep :: ·)

def splitWords [BEq β] (sep : β) (s : List β) : List (List β) :=
  (s.splitOn sep).tail

private theorem intercalate_words (sep : β) (w : List β) (ws : List (List β)) :
    [sep].intercalate (w :: ws) = w ++ joinWords sep ws := by
  induction ws generalizing w with
  | nil => simp [joinWords]
  | cons v ws ih =>
      have hcons : [sep].intercalate (w :: v :: ws) =
          w ++ [sep] ++ [sep].intercalate (v :: ws) := by
        simp [List.intercalate]
      rw [hcons, ih]
      simp [joinWords]

/-- Words without separators in them are found again. -/
theorem split_joinWords [BEq β] [LawfulBEq β] {sep : β} {ws : List (List β)}
    (h : ∀ w ∈ ws, sep ∉ w) : splitWords sep (joinWords sep ws) = ws := by
  have hnil : joinWords sep ws = [sep].intercalate ([] :: ws) := by
    rw [intercalate_words, List.nil_append]
  rw [splitWords, hnil, List.splitOn_intercalate sep _ (by simp)]
  · rfl
  · intro w hw
    rcases List.mem_cons.mp hw with rfl | hw
    · exact List.not_mem_nil
    · exact h w hw

end ParallelBTree.Verified.Multiway
