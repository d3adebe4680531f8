import Mathlib
import ParallelBTree.Ports.Runs
import ParallelBTree.Verified.Bracket

/-!
# `to_str`

The string that `to_str` builds is the bracket notation of the tree, each token
with a space in front (`to_str_run`).  Numbers are written in decimal, so no
token contains a space and the tokens can be told apart; reading them back
recovers the outline of the tree.

The empty tree is written like a node without keys.  No other tree is, because a
root has at least one key (`to_str_faithful`).
-/

namespace ParallelBTree.Ports

open ParallelBTree.Verified.Program
open ParallelBTree.Verified.Multiway
open ParallelBTree.Ports.NodeMemory
open ParallelBTree.Ports.Represent

/-! ## Spelling tokens -/

namespace Notation

/-- A token without the space in front of it. -/
def spell : Token Int → List Char
  | .opening => ['[']
  | .key k => (toString k).toList
  | .closing => [']']

def unspell (w : List Char) : Option (Token Int) :=
  if w = ['['] then some .opening
  else if w = [']'] then some .closing
  else (String.ofList w).toInt?.map .key

def spelled (ts : List (Token Int)) : List Char :=
  joinWords ' ' (ts.map spell)

/-- What reads a string that `to_str` has built. -/
def readText (s : String) : Option (Outline Int) := do
  readTokens (← (splitWords ' ' s.toList).mapM unspell)

/-- A number is written with digits and an optional minus. -/
theorem mem_toString {k : Int} {c : Char} (h : c ∈ (toString k).toList) :
    c = '-' ∨ c.isDigit = true := by
  have hdigit : ∀ {n : Nat}, c ∈ n.repr.toList → c.isDigit = true := by
    intro n hn
    rw [Nat.toList_repr] at hn
    exact Nat.isDigit_of_mem_toDigits (by decide) (by decide) hn
  rw [Int.toString_eq_repr, Int.repr_eq_if] at h
  by_cases hk : 0 ≤ k
  · rw [if_pos hk] at h
    exact Or.inr (hdigit h)
  · rw [if_neg hk, String.toList_append, List.mem_append] at h
    rcases h with h | h
    · exact Or.inl (List.mem_singleton.mp h)
    · exact Or.inr (hdigit h)

theorem toString_ne {k : Int} {c : Char} (hminus : c ≠ '-')
    (hdigit : c.isDigit = false) : (toString k).toList ≠ [c] := by
  intro h
  have hmem : c ∈ (toString k).toList := by rw [h]; exact List.mem_singleton_self c
  rcases mem_toString hmem with hc | hc
  · exact hminus hc
  · exact absurd (hdigit.symm.trans hc) Bool.false_ne_true

theorem unspell_spell (x : Token Int) : unspell (spell x) = some x := by
  cases x with
  | opening => rfl
  | closing => rfl
  | key k =>
      unfold unspell spell
      rw [if_neg (toString_ne (by decide) (by decide)),
        if_neg (toString_ne (by decide) (by decide)), String.ofList_toList,
        Int.toString_eq_repr, Int.toInt?_repr]
      rfl

theorem space_notMem_spell (x : Token Int) : ' ' ∉ spell x := by
  cases x with
  | opening => decide
  | closing => decide
  | key k =>
      intro h
      rcases mem_toString h with hc | hc
      · exact absurd hc (by decide)
      · exact absurd hc (by decide)

/-- The text of a tree reads as its outline. -/
theorem readText_spelled (n : Nat) (T : Tree Int n) :
    readText (String.ofList (spelled (tokens n T))) = some (outline n T) := by
  have hsplit : splitWords ' ' (spelled (tokens n T)) =
      (tokens n T).map spell := by
    apply split_joinWords
    intro w hw
    obtain ⟨x, -, rfl⟩ := List.mem_map.mp hw
    exact space_notMem_spell x
  have hwords : ((tokens n T).map spell).mapM unspell = some (tokens n T) := by
    rw [List.mapM_map]
    have hspell : unspell ∘ spell = some := funext unspell_spell
    rw [hspell]
    exact (List.mapM_pure (f := id)).trans (by rw [List.map_id]; rfl)
  unfold readText
  rw [String.toList_ofList, hsplit, hwords]
  exact read_tokens n T

theorem spelled_append (a b : List (Token Int)) :
    spelled (a ++ b) = spelled a ++ spelled b := by
  rw [spelled, List.map_append, joinWords, List.flatMap_append]
  rfl

/-- One token more at the end of a string. -/
theorem append_spelled (l : List Char) (ts : List (Token Int)) :
    String.ofList l ++ String.ofList (spelled ts) =
      String.ofList (l ++ spelled ts) := String.ofList_append.symm

theorem spelled_key (k : Int) :
    " " ++ toString k = String.ofList (spelled [.key k]) := by
  rw [← String.toList_inj, String.toList_append, String.toList_ofList]
  simp [spelled, joinWords, spell]

end Notation

/-! ## What `to_str` returns -/

namespace BTreeNode

open Notation

variable {m : Mem} {t : Nat}

private theorem foldl_leaf (K : List Int) (l : List Char) :
    K.foldl (fun acc k => acc ++ (" " ++ toString k)) (String.ofList l) =
      String.ofList (l ++ spelled (K.map .key)) := by
  induction K generalizing l with
  | nil => simp [spelled, joinWords]
  | cons k K ih =>
      have hsplit : spelled ((k :: K).map .key) =
          spelled [.key k] ++ spelled (K.map .key) :=
        spelled_append [.key k] (K.map .key)
      rw [List.foldl_cons, spelled_key, append_spelled, ih, hsplit,
        List.append_assoc]

private theorem foldl_inner (K : List Int) (xs : List (List (Token Int)))
    (h : K.length = xs.length) (l : List Char) :
    (K.zip xs).foldl (fun acc kx => acc ++ String.ofList (spelled kx.2) ++
        (" " ++ toString kx.1)) (String.ofList l) =
      String.ofList (l ++ spelled (interleave (K.map .key) xs)) := by
  induction K generalizing xs l with
  | nil =>
      obtain rfl : xs = [] := List.length_eq_zero_iff.mp h.symm
      simp [spelled, joinWords]
  | cons k K ih =>
      cases xs with
      | nil => simp at h
      | cons x xs =>
          have hsplit : spelled (interleave ((k :: K).map .key) (x :: xs)) =
              spelled x ++ (spelled [.key k] ++
                spelled (interleave (K.map .key) xs)) := by
            rw [List.map_cons, interleave, spelled_append]
            congr 1
            exact spelled_append [.key k] _
          rw [List.zip_cons_cons, List.foldl_cons, spelled_key, append_spelled,
            append_spelled, ih xs (by simpa using h), hsplit, List.append_assoc,
            List.append_assoc]

private theorem open_eq : " [" = String.ofList (spelled [.opening]) := rfl

private theorem close_eq : " ]" = String.ofList (spelled [.closing]) := rfl

/-- `to_str` writes the bracket notation of the tree. -/
theorem to_str_run : ∀ (n : Nat) (T : Tree Int n) (fuel : Nat), n < fuel →
    Rep m t n T → WF t n T →
    to_str fuel T.id m = .ok (String.ofList (spelled (tokens n T)), m) := by
  intro n
  induction n with
  | zero =>
      intro T fuel hfuel h _
      obtain ⟨f, rfl⟩ := Nat.exists_eq_add_one_of_ne_zero hfuel.ne'
      obtain ⟨nd, hget, hnd⟩ := h
      have hloop : foldUp nd.keysnum " [" (fun i result => do
          let result ← (if nd.leaf then pure result
            else do pure (result ++ (← to_str f (← child T.id i))))
          pure (result ++ (" " ++ toString (← keyAt T.id i)))) m =
          .ok (T.keys.foldl (fun acc k => acc ++ (" " ++ toString k)) " [",
            m) := by
        apply foldUp_run _ T.keys hnd.keysnum_eq.symm
        intro j k acc hk
        rw [if_pos hnd.leaf_eq, bind_run_ok (pure_run acc m),
          bind_run_ok (keyAt_run hget (hnd.key_at hk)), pure_run]
      unfold to_str
      rw [bind_run_ok (node_run hget), bind_run_ok hloop, if_pos hnd.leaf_eq,
        bind_run_ok (pure_run _ m), pure_run, open_eq, foldl_leaf, close_eq,
        append_spelled]
      rw [tokens_zero, spelled_append, spelled_append, List.append_assoc]
  | succ n ih =>
      intro T fuel hfuel h hwf
      obtain ⟨f, rfl⟩ := Nat.exists_eq_add_one_of_ne_zero
        (Nat.zero_lt_of_lt hfuel).ne'
      have hf : n < f := Nat.lt_of_succ_lt_succ hfuel
      obtain ⟨p, K, C⟩ := T
      obtain ⟨D, e, rfl⟩ : ∃ D e, C = D ++ [e] := by
        have hne : C ≠ [] := List.ne_nil_of_length_eq_add_one hwf.2.1
        exact ⟨C.dropLast, C.getLast hne, (List.dropLast_concat_getLast hne).symm⟩
      have hlen : K.length = D.length := by
        have hC := hwf.2.1
        simp only [List.length_append, List.length_singleton, Node.size] at hC
        omega
      obtain ⟨nd, hget, hnd⟩ := h.1
      have hkid : ∀ j c, (D ++ [e])[j]? = some c →
          child p j m = .ok (c.id, m) ∧ to_str f c.id m =
            .ok (String.ofList (spelled (tokens n c)), m) := by
        intro j c hc
        have hmem := List.mem_of_getElem? hc
        exact ⟨(h.kid_run hc).1, ih c f hf (h.2 c hmem) (hwf.kid hmem).2⟩
      have hloop : foldUp nd.keysnum " [" (fun i result => do
          let result ← (if nd.leaf then pure result
            else do pure (result ++ (← to_str f (← child p i))))
          pure (result ++ (" " ++ toString (← keyAt p i)))) m =
          .ok ((K.zip (D.map (tokens n))).foldl (fun acc kx => acc ++
            String.ofList (spelled kx.2) ++ (" " ++ toString kx.1)) " [",
            m) := by
        apply foldUp_run _ _ (by simp [hnd.keysnum_eq, hlen])
        rintro j ⟨k, x⟩ acc hkx
        obtain ⟨hk, hx⟩ := List.getElem?_zip_eq_some.mp hkx
        rw [List.getElem?_map] at hx
        obtain ⟨c, hc, rfl⟩ := Option.map_eq_some_iff.mp hx
        have hj : j < D.length := (List.getElem?_eq_some_iff.mp hc).1
        obtain ⟨hchild, hstr⟩ := hkid j c (by
          rw [List.getElem?_append_left hj]
          exact hc)
        rw [if_neg (by simp [hnd.leaf_eq]), bind_assoc, bind_run_ok hchild,
          bind_assoc, bind_run_ok hstr, bind_run_ok (pure_run _ m),
          bind_run_ok (keyAt_run hget (hnd.key_at hk)), pure_run]
      obtain ⟨hchild, hstr⟩ := hkid D.length e (by simp)
      have hnum : nd.keysnum = D.length := by
        rw [hnd.keysnum_eq]
        exact hlen
      unfold to_str
      rw [bind_run_ok (node_run hget), bind_run_ok hloop, hnum,
        if_neg (by simp [hnd.leaf_eq]), bind_assoc, bind_run_ok hchild,
        bind_assoc, bind_run_ok hstr, bind_run_ok (pure_run _ m), pure_run,
        open_eq, foldl_inner K _ (by simpa using hlen), append_spelled, close_eq,
        append_spelled, tokens_concat hlen]
      simp only [spelled_append, List.append_assoc]

end BTreeNode

/-! ## The whole object -/

namespace BTree

open Notation

variable {b : BTree} {L : List Int}

/-- What can be seen of a tree object; `none` without a root. -/
def outline (b : BTree) : Except Fault (Option (Outline Int)) :=
  match b.root with
  | none => pure none
  | some r => do
      let (x, _) ← BTreeNode.foldTree (fun _ => .node) b.mem.nodes.length r b.mem
      pure (some x)

/-- What reads a string that `to_str` of a tree object has built: a node without
keys stands for no tree. -/
def recover (s : String) : Option (Option (Outline Int)) :=
  (readText s).map fun x =>
    match x with
    | .node [] _ => none
    | x => some x

/-- The text of what can be seen of a tree object. -/
def textOf : Option (Outline Int) → String
  | none => " [ ]"
  | some x => String.ofList (spelled x.tokens)

/-- `to_str` returns the text of what can be seen of the tree, and this can be
recovered from it. -/
theorem Stores.to_str (h : b.Stores L) :
    ∃ x, b.outline = .ok x ∧ to_str b.root b.mem = .ok (textOf x, b.mem) ∧
      recover (textOf x) = some x := by
  cases h with
  | vacant h =>
      refine ⟨none, ?_, ?_, ?_⟩
      · simp only [BTree.outline, h.root]
        rfl
      · rw [h.root]
        rfl
      · have hkeyless : textOf none =
            String.ofList (spelled (tokens 0 ⟨0, [], []⟩)) := rfl
        rw [hkeyless, recover, readText_spelled]
        rfl
  | @holding n T h =>
      have htext : textOf (some (Verified.Multiway.outline n T)) =
          String.ofList (spelled (tokens n T)) := by
        rw [textOf, tokens_outline]
      refine ⟨some (Verified.Multiway.outline n T), ?_, ?_, ?_⟩
      · have hrun := foldTree_run (fun _ => Outline.node) n T b.mem.nodes.length
          h.fuel h.rep h.wf
        simp only [BTree.outline, h.root, hrun]
        rfl
      · rw [h.root, BTree.to_str, bind_run_ok (get_run b.mem), htext]
        exact BTreeNode.to_str_run n T _ h.fuel h.rep h.wf
      · have hkeys : T.keys ≠ [] := List.length_pos_iff.mp h.size
        obtain ⟨k, K, hK⟩ := List.exists_cons_of_ne_nil hkeys
        rw [htext, recover, readText_spelled]
        cases n <;> simp [Verified.Multiway.outline, fold, hK]

/-- Two reachable trees are written the same exactly if they look the same, and
one reader recovers what any of them looks like from its text. -/
theorem to_str_faithful (t t' : Nat) (ht : 2 ≤ t) (ht' : 2 ≤ t')
    (ops ops' : List Op) :
    ∃ a b x y u v, (BTree.new t).run ops = .ok a ∧
      (BTree.new t').run ops' = .ok b ∧ a.outline = .ok x ∧ b.outline = .ok y ∧
      BTree.to_str a.root a.mem = .ok (u, a.mem) ∧
      BTree.to_str b.root b.mem = .ok (v, b.mem) ∧ (u = v ↔ x = y) ∧
      recover u = some x ∧ recover v = some y := by
  obtain ⟨a, hrun, -, ha⟩ := run_stores ht ops
  obtain ⟨b, hrun', -, hb⟩ := run_stores ht' ops'
  obtain ⟨x, hx, hu, hux⟩ := ha.to_str
  obtain ⟨y, hy, hv, hvy⟩ := hb.to_str
  refine ⟨a, b, x, y, _, _, hrun, hrun', hx, hy, hu, hv, ?_, hux, hvy⟩
  constructor
  · intro heq
    rw [heq] at hux
    exact Option.some.inj (hux.symm.trans hvy)
  · exact congrArg textOf

theorem to_str_faithful_two :
    ∃ a b x y u v, (BTree.new 2).run [.insert 1, .insert (-2)] = .ok a ∧
      (BTree.new 3).run [.insert (-2), .insert 5, .insert 1, .remove 5] =
        .ok b ∧ a.outline = .ok x ∧ b.outline = .ok y ∧
      BTree.to_str a.root a.mem = .ok (u, a.mem) ∧
      BTree.to_str b.root b.mem = .ok (v, b.mem) ∧ (u = v ↔ x = y) ∧
      recover u = some x ∧ recover v = some y :=
  to_str_faithful 2 3 (by decide) (by decide) [.insert 1, .insert (-2)]
    [.insert (-2), .insert 5, .insert 1, .remove 5]

end BTree

end ParallelBTree.Ports
