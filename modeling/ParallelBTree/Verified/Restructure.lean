import ParallelBTree.Verified.Multiway

/-!
# Restructuring a multiway tree below one node

Four operations exchange keys between a node and two neighbouring kids: a kid
is split in two, two kids are merged, and a key is rotated to the right or to
the left through the node.  With `joined` they are all the same step: a kid is
taken apart into two nodes around a key, or put together from two.

None of them changes what the tree holds.  The occupancy invariant `WF t` (every
node but the root has between `t - 1` and `2t - 1` keys, and one kid more than
keys unless it is a leaf) is stated here for a tree whose root may have any
number of keys up to `2t - 1`, so that it also describes a root that has been
left with no key at all.

An operation looks at one node and its kids only, so what it does to occupancy is
proved for `Occupied t P`, which asks nothing of the grandkids but that they are
`P`.  `WF` is the case in which they are occupied again, all the way down.
-/

namespace ParallelBTree.Verified.Multiway

variable {α κ : Type}

/-! ## The occupancy invariant -/

/-- Occupancy of all nodes below the root, and the upper bound at the root. -/
def WF (t : Nat) : (n : Nat) → Tree α n → Prop
  | 0, T => T.size ≤ 2 * t - 1
  | n + 1, T => T.size ≤ 2 * t - 1 ∧ T.kids.length = T.size + 1 ∧
      ∀ c ∈ T.kids, t - 1 ≤ c.size ∧ WF t n c

theorem WF.size_le {t n : Nat} {T : Tree α n} (h : WF t n T) :
    T.size ≤ 2 * t - 1 := by
  cases n with
  | zero => exact h
  | succ n => exact h.1

theorem WF.branching {t n : Nat} {T : Tree α n} (h : WF t n T) :
    Branching n T := by
  intro hn
  cases n with
  | zero => exact absurd rfl hn
  | succ n => exact h.2.1

theorem WF.kid {t n : Nat} {T : Tree α (n + 1)} (h : WF t (n + 1) T)
    {c : Tree α n} (hc : c ∈ T.kids) : t - 1 ≤ c.size ∧ WF t n c :=
  h.2.2 c hc

/-- One node: at most `hi` keys, one kid more than keys unless it is a leaf, and
`P` of every kid. -/
def Shaped (hi : Nat) (P : (n : Nat) → Tree α n → Prop) :
    (n : Nat) → Tree α n → Prop
  | 0, T => T.size ≤ hi
  | n + 1, T => T.size ≤ hi ∧ T.kids.length = T.size + 1 ∧ ∀ c ∈ T.kids, P n c

section Shaped

variable {hi n : Nat} {P : (n : Nat) → Tree α n → Prop} {c s T : Tree α n}
  {k : α}

theorem Shaped.size_le (h : Shaped hi P n T) : T.size ≤ hi := by
  cases n with
  | zero => exact h
  | succ n => exact h.1

theorem Shaped.branching (h : Shaped hi P n T) : Branching n T := by
  intro hn
  cases n with
  | zero => exact absurd rfl hn
  | succ n => exact h.2.1

theorem Shaped.joined (hc : Shaped hi P n c) (hs : Shaped hi P n s)
    (hsize : c.size + s.size + 1 ≤ hi) : Shaped hi P n (c.joined k s) := by
  have hlen : (c.joined k s).size = c.size + s.size + 1 := by
    simp [Node.joined, Node.size]
    omega
  cases n with
  | zero =>
      show (c.joined k s).size ≤ hi
      omega
  | succ n =>
      refine ⟨by omega, ?_, ?_⟩
      · have h1 := hc.2.1
        have h2 := hs.2.1
        rw [hlen]
        simp only [Node.joined, List.length_append]
        omega
      · intro x hx
        rcases List.mem_append.mp hx with hx | hx
        · exact hc.2.2 x hx
        · exact hs.2.2 x hx

theorem Shaped.of_joined (h : Shaped hi P n (c.joined k s))
    (hc : Branching n c) : Shaped hi P n c ∧ Shaped hi P n s := by
  have hlen : (c.joined k s).size = c.size + s.size + 1 := by
    simp [Node.joined, Node.size]
    omega
  have hle := h.size_le
  cases n with
  | zero =>
      constructor
      · show c.size ≤ hi
        omega
      · show s.size ≤ hi
        omega
  | succ n =>
      have hck := hc (Nat.succ_ne_zero n)
      have hkids : c.kids.length + s.kids.length = (c.joined k s).size + 1 := by
        have := h.2.1
        simpa only [Node.joined, List.length_append] using this
      constructor
      · exact ⟨by omega, hck, fun x hx => h.2.2 x (List.mem_append_left _ hx)⟩
      · exact ⟨by omega, by omega,
          fun x hx => h.2.2 x (List.mem_append_right _ hx)⟩

end Shaped

theorem wf_iff {t n : Nat} {T : Tree α n} : WF t n T ↔
    Shaped (2 * t - 1) (fun n c => t - 1 ≤ c.size ∧ WF t n c) n T := by
  cases n <;> exact Iff.rfl

theorem WF.joined {t n : Nat} {c s : Tree α n} {k : α} (hc : WF t n c)
    (hs : WF t n s) (hsize : c.size + s.size + 1 ≤ 2 * t - 1) :
    WF t n (c.joined k s) :=
  wf_iff.mpr ((wf_iff.mp hc).joined (wf_iff.mp hs) hsize)

/-- Occupancy of one node and its kids. -/
def Occupied (t : Nat) (P : (n : Nat) → Tree α n → Prop) (n : Nat)
    (T : Tree α (n + 1)) : Prop :=
  Shaped (2 * t - 1)
    (fun n c => t - 1 ≤ c.size ∧ Shaped (2 * t - 1) P n c) (n + 1) T

theorem wf_iff_occupied {t n : Nat} {T : Tree α (n + 1)} : WF t (n + 1) T ↔
    Occupied t (fun n c => t - 1 ≤ c.size ∧ WF t n c) n T := by
  refine and_congr_right fun _ => and_congr_right fun _ => forall₂_congr ?_
  exact fun _ _ => and_congr_right fun _ => wf_iff

theorem Occupied.kid {t n : Nat} {P : (n : Nat) → Tree α n → Prop}
    {T : Tree α (n + 1)} (h : Occupied t P n T) {c : Tree α n}
    (hc : c ∈ T.kids) : t - 1 ≤ c.size ∧ Shaped (2 * t - 1) P n c :=
  h.2.2 c hc

/-- One kid more than keys in every node that is not a leaf, and nothing else. -/
def Branched : (n : Nat) → Tree α n → Prop
  | 0, _ => True
  | n + 1, T => T.kids.length = T.size + 1 ∧ ∀ c ∈ T.kids, Branched n c

theorem shaped_branched_iff {hi n : Nat} {T : Tree α n} :
    Shaped hi Branched n T ↔ T.size ≤ hi ∧ Branched n T := by
  cases n with
  | zero => exact (and_iff_left trivial).symm
  | succ n => exact Iff.rfl

/-- A node and its kids are occupied, whatever the key counts below them. -/
theorem occupied_branched_iff {t n : Nat} {T : Tree α (n + 1)} :
    Occupied t Branched n T ↔ T.size ≤ 2 * t - 1 ∧ Branched (n + 1) T ∧
      ∀ c ∈ T.kids, t - 1 ≤ c.size ∧ c.size ≤ 2 * t - 1 := by
  constructor
  · rintro ⟨hsize, hlen, hkids⟩
    refine ⟨hsize, ⟨hlen, fun c hc => ?_⟩, fun c hc => ?_⟩
    · exact (shaped_branched_iff.mp (hkids c hc).2).2
    · exact ⟨(hkids c hc).1, (hkids c hc).2.size_le⟩
  · rintro ⟨hsize, ⟨hlen, hbr⟩, hkids⟩
    refine ⟨hsize, hlen, fun c hc => ⟨(hkids c hc).1, ?_⟩⟩
    exact shaped_branched_iff.mpr ⟨(hkids c hc).2, hbr c hc⟩

/-! ## Taking a node apart -/

/-- The first `t - 1` keys of a node, with the kids between and around them. -/
def Node.splitLeft (t : Nat) (c : Node α κ) : Node α κ :=
  ⟨c.id, c.keys.take (t - 1), c.kids.take t⟩

/-- What is behind key `t - 1`, as a new node `z`. -/
def Node.splitRight (t z : Nat) (c : Node α κ) : Node α κ :=
  ⟨z, c.keys.drop t, c.kids.drop t⟩

/-- A node without its last key and last kid. -/
def Node.init (s : Node α κ) : Node α κ :=
  ⟨s.id, s.keys.dropLast, s.kids.dropLast⟩

/-- The last kid alone, in a node `id` without keys. -/
def Node.last (id : Nat) (s : Node α κ) : Node α κ :=
  ⟨id, [], s.kids.getLast?.toList⟩

/-- The first kid alone, in a node `id` without keys. -/
def Node.first (id : Nat) (s : Node α κ) : Node α κ :=
  ⟨id, [], s.kids.take 1⟩

/-- A node without its first key and first kid. -/
def Node.rest (s : Node α κ) : Node α κ :=
  ⟨s.id, s.keys.drop 1, s.kids.drop 1⟩

theorem eq_splitLeft_joined {t : Nat} (z : Nat) {c : Node α κ} {k : α}
    {K : List α} (ht : 1 ≤ t) (h : c.keys.drop (t - 1) = k :: K) :
    c = (c.splitLeft t).joined k (c.splitRight t z) := by
  obtain ⟨id, keys, kids⟩ := c
  have hdrop : keys.drop t = K := by
    have := congrArg (List.drop 1) h
    rw [List.drop_drop, Nat.sub_add_cancel ht] at this
    simpa using this
  have hkeys : keys = keys.take (t - 1) ++ k :: keys.drop t := by
    rw [hdrop, ← h, List.take_append_drop]
  simp only [Node.joined, Node.splitLeft, Node.splitRight, List.take_append_drop]
  rw [← hkeys]

private theorem dropLast_append_getLast (l : List α) :
    l.dropLast ++ l.getLast?.toList = l := by
  cases l using List.reverseRecOn with
  | nil => rfl
  | append_singleton l x => simp

theorem eq_init_joined (id : Nat) {s : Node α κ} {k : α}
    (h : s.keys.getLast? = some k) : s = s.init.joined k (s.last id) := by
  obtain ⟨sid, keys, kids⟩ := s
  have hkeys := dropLast_append_getLast keys
  rw [h] at hkeys
  simp only [Option.toList] at hkeys
  simp only [Node.joined, Node.init, Node.last, dropLast_append_getLast, hkeys]

theorem eq_first_joined {s : Node α κ} {k : α} (h : s.keys.head? = some k) :
    s = (s.first s.id).joined k s.rest := by
  obtain ⟨sid, keys, kids⟩ := s
  cases keys with
  | nil => simp at h
  | cons x xs =>
      have hx : x = k := by simpa using h
      simp only [Node.joined, Node.first, Node.rest, hx, List.drop_succ_cons,
        List.drop_zero, List.take_append_drop, List.nil_append]

theorem splitLeft_branching {t n : Nat} {c : Tree α n} (ht : 1 ≤ t)
    (hc : Branching n c) (hsize : t ≤ c.size) : Branching n (c.splitLeft t) := by
  intro hn
  have := hc hn
  simp only [Node.size] at this hsize
  simp only [Node.splitLeft, Node.size, List.length_take]
  omega

theorem init_branching {n : Nat} {s : Tree α n} (hs : Branching n s)
    (hsize : 1 ≤ s.size) : Branching n s.init := by
  intro hn
  have := hs hn
  simp only [Node.size] at this hsize
  simp only [Node.init, Node.size, List.length_dropLast]
  omega

theorem first_branching {n : Nat} {s : Tree α n} (id : Nat)
    (hs : Branching n s) : Branching n (s.first id) := by
  intro hn
  have := hs hn
  simp only [Node.first, Node.size_mk, List.length_take, List.length_nil]
  omega

theorem last_branching {n : Nat} {s : Tree α n} (id : Nat)
    (hs : Branching n s) : Branching n (s.last id) := by
  intro hn
  have hlen := hs hn
  cases hkids : s.kids using List.reverseRecOn with
  | nil => simp [hkids] at hlen
  | append_singleton l x => simp [Node.last, hkids]

/-! ## The four operations -/

/-- Kid `i` is split around its key `t - 1`, the right half becoming `z`. -/
def Node.split (t z i : Nat) (P : Node α (Node α κ)) : Node α (Node α κ) :=
  match P.kids.drop i with
  | [] => P
  | c :: B =>
      match c.keys.drop (t - 1) with
      | [] => P
      | k :: _ =>
          ⟨P.id, P.keys.take i ++ k :: P.keys.drop i,
            P.kids.take i ++ c.splitLeft t :: c.splitRight t z :: B⟩

/-- Splitting a kid changes the height of no subtree. -/
theorem split_atHeight {t z i k q n : Nat} {P : Tree α (n + 1)}
    (h : AtHeight k q (n + 1) P) :
    AtHeight k q (n + 1) (P.split t z i : Tree α (n + 1)) := by
  have hkids : ∀ (c : Tree α n) (B : List (Tree α n)), P.kids.drop i = c :: B →
      (∃ x ∈ P.kids, AtHeight k q n x) →
      ∃ x ∈ P.kids.take i ++ c.splitLeft t :: c.splitRight t z :: B,
        AtHeight k q n x := by
    rintro c B hdrop ⟨x, hx, hq⟩
    rw [← List.take_append_drop i P.kids, hdrop] at hx
    simp only [List.mem_append, List.mem_cons] at hx ⊢
    rcases hx with hx | rfl | hx
    · exact ⟨x, Or.inl hx, hq⟩
    · -- a subtree of the kid is in one of its halves
      cases n with
      | zero => exact ⟨_, Or.inr (Or.inl rfl), hq⟩
      | succ n =>
          rcases hq with hroot | ⟨y, hy, hq⟩
          · exact ⟨_, Or.inr (Or.inl rfl), Or.inl hroot⟩
          · rw [← List.take_append_drop t x.kids] at hy
            rcases List.mem_append.mp hy with hy | hy
            · exact ⟨_, Or.inr (Or.inl rfl), Or.inr ⟨y, hy, hq⟩⟩
            · exact ⟨_, Or.inr (Or.inr (Or.inl rfl)), Or.inr ⟨y, hy, hq⟩⟩
    · exact ⟨x, Or.inr (Or.inr (Or.inr hx)), hq⟩
  unfold Node.split
  split
  · exact h
  · rename_i c B hdrop
    split
    · exact h
    · exact h.imp_right (hkids c B hdrop)

/-- Kids `i` and `i + 1` are merged around key `i`. -/
def Node.merge (i : Nat) (P : Node α (Node α κ)) : Node α (Node α κ) :=
  match P.keys.drop i, P.kids.drop i with
  | k :: kb, c :: s :: B =>
      ⟨P.id, P.keys.take i ++ kb, P.kids.take i ++ c.joined k s :: B⟩
  | _, _ => P

/-- The last key of kid `i` moves up, and key `i` down into kid `i + 1`. -/
def Node.rotateRight (i : Nat) (P : Node α (Node α κ)) : Node α (Node α κ) :=
  match P.keys.drop i, P.kids.drop i with
  | k :: kb, s :: c :: B =>
      match s.keys.getLast? with
      | none => P
      | some x =>
          ⟨P.id, P.keys.take i ++ x :: kb,
            P.kids.take i ++ s.init :: (s.last c.id).joined k c :: B⟩
  | _, _ => P

/-- The first key of kid `i + 1` moves up, and key `i` down into kid `i`. -/
def Node.rotateLeft (i : Nat) (P : Node α (Node α κ)) : Node α (Node α κ) :=
  match P.keys.drop i, P.kids.drop i with
  | k :: kb, c :: s :: B =>
      match s.keys.head? with
      | none => P
      | some x =>
          ⟨P.id, P.keys.take i ++ x :: kb,
            P.kids.take i ++ c.joined k (s.first s.id) :: s.rest :: B⟩
  | _, _ => P

section Focus

variable {i p : Nat} {ka kb : List α} {A B : List (Node α κ)}
  {c s : Node α κ} {k x : α}

theorem split_mk {t z : Nat} {K : List α} (hk : ka.length = i)
    (hA : A.length = i) (hc : c.keys.drop (t - 1) = x :: K) :
    Node.split t z i ⟨p, ka ++ kb, A ++ c :: B⟩ =
      ⟨p, ka ++ x :: kb, A ++ c.splitLeft t :: c.splitRight t z :: B⟩ := by
  simp only [Node.split, List.drop_left' hk, List.drop_left' hA,
    List.take_left' hk, List.take_left' hA, hc]

theorem merge_mk (hk : ka.length = i) (hA : A.length = i) :
    Node.merge i ⟨p, ka ++ k :: kb, A ++ c :: s :: B⟩ =
      ⟨p, ka ++ kb, A ++ c.joined k s :: B⟩ := by
  simp only [Node.merge, List.drop_left' hk, List.drop_left' hA,
    List.take_left' hk, List.take_left' hA]

theorem rotateRight_mk (hk : ka.length = i) (hA : A.length = i)
    (hx : s.keys.getLast? = some x) :
    Node.rotateRight i ⟨p, ka ++ k :: kb, A ++ s :: c :: B⟩ =
      ⟨p, ka ++ x :: kb, A ++ s.init :: (s.last c.id).joined k c :: B⟩ := by
  simp only [Node.rotateRight, List.drop_left' hk, List.drop_left' hA,
    List.take_left' hk, List.take_left' hA, hx]

theorem rotateLeft_mk (hk : ka.length = i) (hA : A.length = i)
    (hx : s.keys.head? = some x) :
    Node.rotateLeft i ⟨p, ka ++ k :: kb, A ++ c :: s :: B⟩ =
      ⟨p, ka ++ x :: kb, A ++ c.joined k (s.first s.id) :: s.rest :: B⟩ := by
  simp only [Node.rotateLeft, List.drop_left' hk, List.drop_left' hA,
    List.take_left' hk, List.take_left' hA, hx]

end Focus

/-! ## What the operations keep -/

section Keep

variable {n p : Nat} {ka kb : List α} {A B : List (Tree α n)}
  {c s : Tree α n} {k x : α}

/-- A node cut at two neighbouring kids. -/
theorem inorder_pair (h : ka.length = A.length) :
    inorder (n + 1) ⟨p, ka ++ k :: kb, A ++ c :: s :: B⟩ =
      interleave ka (A.map (inorder n)) ++
        ((inorder n c ++ k :: inorder n s) ++ tailOf kb (B.map (inorder n))) := by
  rw [inorder_focus p ka (k :: kb) A (s :: B) c h]
  simp [tailOf, interleave_cons]

theorem splitLeft_splitRight_inorder {t : Nat} (z : Nat) {K : List α}
    (ht : 1 ≤ t) (hk : c.keys.drop (t - 1) = k :: K) (hc : Branching n c)
    (hsize : t ≤ c.size) :
    inorder n (c.splitLeft t) ++ k :: inorder n (c.splitRight t z) =
      inorder n c := by
  rw [← inorder_joined n _ _ k (splitLeft_branching ht hc hsize),
    ← eq_splitLeft_joined z ht hk]

theorem rotateRight_inorder (hx : s.keys.getLast? = some x)
    (hs : Branching n s) (hsize : 1 ≤ s.size) :
    inorder n s.init ++ x :: inorder n ((s.last c.id).joined k c) =
      inorder n s ++ k :: inorder n c := by
  have hsplit : inorder n s =
      inorder n s.init ++ x :: inorder n (s.last c.id) := by
    rw [← inorder_joined n _ _ x (init_branching hs hsize),
      ← eq_init_joined c.id hx]
  rw [inorder_joined n _ _ k (last_branching c.id hs), hsplit]
  simp

theorem rotateLeft_inorder (hx : s.keys.head? = some x)
    (hc : Branching n c) (hs : Branching n s) :
    inorder n (c.joined k (s.first s.id)) ++ x :: inorder n s.rest =
      inorder n c ++ k :: inorder n s := by
  have hsplit : inorder n s =
      inorder n (s.first s.id) ++ x :: inorder n s.rest := by
    rw [← inorder_joined n _ _ x (first_branching s.id hs),
      ← eq_first_joined hx]
  rw [inorder_joined n _ _ k hc, hsplit]
  simp

theorem splitLeft_splitRight_shaped {hi t : Nat}
    {P : (n : Nat) → Tree α n → Prop} (z : Nat) {K : List α} (ht : 1 ≤ t)
    (hk : c.keys.drop (t - 1) = k :: K) (hc : Shaped hi P n c)
    (hsize : t ≤ c.size) :
    Shaped hi P n (c.splitLeft t) ∧ Shaped hi P n (c.splitRight t z) := by
  have h := hc
  rw [eq_splitLeft_joined z ht hk] at h
  exact h.of_joined (splitLeft_branching ht hc.branching hsize)

theorem splitLeft_splitRight_wf {t : Nat} (z : Nat) {K : List α} (ht : 1 ≤ t)
    (hk : c.keys.drop (t - 1) = k :: K) (hc : WF t n c) (hsize : t ≤ c.size) :
    WF t n (c.splitLeft t) ∧ WF t n (c.splitRight t z) := by
  obtain ⟨hl, hr⟩ := splitLeft_splitRight_shaped z ht hk (wf_iff.mp hc) hsize
  exact ⟨wf_iff.mpr hl, wf_iff.mpr hr⟩

theorem init_last_shaped {hi : Nat} {P : (n : Nat) → Tree α n → Prop} (id : Nat)
    (hx : s.keys.getLast? = some x) (hs : Shaped hi P n s) (hsize : 1 ≤ s.size) :
    Shaped hi P n s.init ∧ Shaped hi P n (s.last id) := by
  have h := hs
  rw [eq_init_joined id hx] at h
  exact h.of_joined (init_branching hs.branching hsize)

theorem first_rest_shaped {hi : Nat} {P : (n : Nat) → Tree α n → Prop}
    (hx : s.keys.head? = some x) (hs : Shaped hi P n s) :
    Shaped hi P n (s.first s.id) ∧ Shaped hi P n s.rest := by
  have h := hs
  rw [eq_first_joined hx] at h
  exact h.of_joined (first_branching s.id hs.branching)

/-- A node whose kids are `A`, some new ones in the middle, and `B`. -/
theorem Occupied.middle {t : Nat} {P : (n : Nat) → Tree α n → Prop}
    {K L : List α} {M N : List (Tree α n)}
    (h : Occupied t P n ⟨p, K, A ++ (M ++ B)⟩) (hK : L.length ≤ 2 * t - 1)
    (hlen : L.length + M.length = K.length + N.length)
    (hM : ∀ c ∈ N, t - 1 ≤ c.size ∧ Shaped (2 * t - 1) P n c) :
    Occupied t P n ⟨p, L, A ++ (N ++ B)⟩ := by
  have hkids := h.2.1
  simp only [Node.size_mk, List.length_append] at hkids
  refine ⟨hK, by simp only [Node.size_mk, List.length_append]; omega, ?_⟩
  intro c hc
  simp only [List.mem_append] at hc
  rcases hc with hc | hc | hc
  · exact h.2.2 c (by simp [hc])
  · exact hM c hc
  · exact h.2.2 c (by simp [hc])

theorem WF.middle {t : Nat} {K L : List α} {M N : List (Tree α n)}
    (h : WF t (n + 1) ⟨p, K, A ++ (M ++ B)⟩) (hK : L.length ≤ 2 * t - 1)
    (hlen : L.length + M.length = K.length + N.length)
    (hM : ∀ c ∈ N, t - 1 ≤ c.size ∧ WF t n c) :
    WF t (n + 1) ⟨p, L, A ++ (N ++ B)⟩ :=
  wf_iff_occupied.mpr ((wf_iff_occupied.mp h).middle hK hlen fun c hc =>
    ⟨(hM c hc).1, wf_iff.mp (hM c hc).2⟩)

/-- Replacing some kids by others, up to the identities they hold. -/
theorem ids_middle {K L : List α} {M N : List (Tree α n)} {X Y : List Nat}
    (h : (X ++ M.flatMap (ids n)).Perm (Y ++ N.flatMap (ids n))) :
    (X ++ ids (n + 1) ⟨p, K, A ++ (M ++ B)⟩).Perm
      (Y ++ ids (n + 1) ⟨p, L, A ++ (N ++ B)⟩) := by
  simp only [ids, List.flatMap_append]
  have hA : ∀ Z W : List Nat, (Z ++ p :: (A.flatMap (ids n) ++
      (W ++ B.flatMap (ids n)))).Perm
      (p :: (A.flatMap (ids n) ++ (B.flatMap (ids n) ++ (Z ++ W)))) := by
    intro Z W
    refine List.perm_middle.trans (List.Perm.cons p ?_)
    apply List.perm_append_comm.trans
    rw [List.append_assoc]
    apply List.Perm.append_left _
    rw [List.append_assoc]
    apply List.perm_append_comm.trans
    rw [List.append_assoc]
  exact (hA X _).trans ((((h.append_left _).append_left _).cons p).trans
    (hA Y _).symm)

theorem inorder_split {t : Nat} (z : Nat) {K : List α} (ht : 1 ≤ t)
    (hk : c.keys.drop (t - 1) = k :: K) (hc : Branching n c)
    (hsize : t ≤ c.size) (h : ka.length = A.length) :
    inorder (n + 1) ⟨p, ka ++ k :: kb,
        A ++ c.splitLeft t :: c.splitRight t z :: B⟩ =
      inorder (n + 1) ⟨p, ka ++ kb, A ++ c :: B⟩ := by
  rw [inorder_pair h, splitLeft_splitRight_inorder z ht hk hc hsize,
    inorder_focus p ka kb A B c h]

theorem inorder_merge (hc : Branching n c) (h : ka.length = A.length) :
    inorder (n + 1) ⟨p, ka ++ kb, A ++ c.joined k s :: B⟩ =
      inorder (n + 1) ⟨p, ka ++ k :: kb, A ++ c :: s :: B⟩ := by
  rw [inorder_pair h, inorder_focus p ka kb A B _ h, inorder_joined n c s k hc]

theorem inorder_rotateRight (hx : s.keys.getLast? = some x)
    (hs : Branching n s) (hsize : 1 ≤ s.size) (h : ka.length = A.length) :
    inorder (n + 1) ⟨p, ka ++ x :: kb,
        A ++ s.init :: (s.last c.id).joined k c :: B⟩ =
      inorder (n + 1) ⟨p, ka ++ k :: kb, A ++ s :: c :: B⟩ := by
  rw [inorder_pair h, inorder_pair h, rotateRight_inorder hx hs hsize]

theorem inorder_rotateLeft (hx : s.keys.head? = some x) (hc : Branching n c)
    (hs : Branching n s) (h : ka.length = A.length) :
    inorder (n + 1) ⟨p, ka ++ x :: kb,
        A ++ c.joined k (s.first s.id) :: s.rest :: B⟩ =
      inorder (n + 1) ⟨p, ka ++ k :: kb, A ++ c :: s :: B⟩ := by
  rw [inorder_pair h, inorder_pair h, rotateLeft_inorder hx hc hs]

theorem wf_split {t : Nat} (z : Nat) {K : List α} (ht : 1 ≤ t)
    (hk : c.keys.drop (t - 1) = k :: K)
    (h : WF t (n + 1) ⟨p, ka ++ kb, A ++ c :: B⟩)
    (hfull : c.size = 2 * t - 1) (hroom : (ka ++ kb).length < 2 * t - 1) :
    WF t (n + 1) ⟨p, ka ++ k :: kb,
      A ++ c.splitLeft t :: c.splitRight t z :: B⟩ := by
  obtain ⟨hl, hr⟩ := splitLeft_splitRight_wf z ht hk
    (h.kid (by simp : c ∈ A ++ c :: B)).2 (by omega)
  refine WF.middle (M := [c])
    (N := [c.splitLeft t, c.splitRight t z]) h ?_ ?_ ?_
  · simp only [List.length_append, List.length_cons] at hroom ⊢
    omega
  · simp only [List.length_append, List.length_cons, List.length_nil]
    omega
  · intro x hx
    simp only [List.mem_cons, List.not_mem_nil, or_false] at hx
    simp only [Node.size] at hfull
    rcases hx with rfl | rfl
    · refine ⟨?_, hl⟩
      simp only [Node.size, Node.splitLeft, List.length_take]
      omega
    · refine ⟨?_, hr⟩
      simp only [Node.size, Node.splitRight, List.length_drop]
      omega

section Occupied

variable {t : Nat} {P : (n : Nat) → Tree α n → Prop}

theorem occupied_merge
    (h : Occupied t P n ⟨p, ka ++ k :: kb, A ++ c :: s :: B⟩)
    (hsize : c.size + s.size + 1 ≤ 2 * t - 1) :
    Occupied t P n ⟨p, ka ++ kb, A ++ c.joined k s :: B⟩ := by
  obtain ⟨hcs, hc⟩ := h.kid (by simp : c ∈ A ++ c :: s :: B)
  obtain ⟨-, hs⟩ := h.kid (by simp : s ∈ A ++ c :: s :: B)
  have hle := h.size_le
  simp only [Node.size_mk, List.length_append, List.length_cons] at hle
  refine Occupied.middle (M := [c, s]) (N := [c.joined k s]) h ?_ ?_ ?_
  · simp only [List.length_append]
    omega
  · simp only [List.length_append, List.length_cons, List.length_nil]
    omega
  · intro x hx
    obtain rfl : x = c.joined k s := by simpa using hx
    refine ⟨?_, hc.joined hs hsize⟩
    simp only [Node.size, Node.joined, List.length_append] at hcs ⊢
    omega

theorem occupied_rotateRight (hx : s.keys.getLast? = some x)
    (h : Occupied t P n ⟨p, ka ++ k :: kb, A ++ s :: c :: B⟩)
    (hs : t ≤ s.size) (ht : 1 ≤ t) (hc : c.size < 2 * t - 1) :
    Occupied t P n ⟨p, ka ++ x :: kb,
      A ++ s.init :: (s.last c.id).joined k c :: B⟩ := by
  have hsocc := (h.kid (by simp : s ∈ A ++ s :: c :: B)).2
  obtain ⟨hcs, hcocc⟩ := h.kid (by simp : c ∈ A ++ s :: c :: B)
  obtain ⟨hinit, hlast⟩ := init_last_shaped c.id hx hsocc (by omega)
  have hle := h.size_le
  simp only [Node.size_mk, List.length_append, List.length_cons] at hle
  refine Occupied.middle (M := [s, c])
    (N := [s.init, (s.last c.id).joined k c]) h ?_ ?_ ?_
  · simp only [List.length_append, List.length_cons]
    omega
  · simp only [List.length_append, List.length_cons, List.length_nil]
  · intro y hy
    simp only [List.mem_cons, List.not_mem_nil, or_false] at hy
    rcases hy with rfl | rfl
    · refine ⟨?_, hinit⟩
      simp only [Node.size, Node.init, List.length_dropLast] at hs ⊢
      omega
    · refine ⟨?_, hlast.joined hcocc ?_⟩
      · simp only [Node.size, Node.joined, List.length_append,
          List.length_cons] at hcs ⊢
        omega
      · simp only [Node.last, Node.size_mk, List.length_nil]
        omega

theorem occupied_rotateLeft (hx : s.keys.head? = some x)
    (h : Occupied t P n ⟨p, ka ++ k :: kb, A ++ c :: s :: B⟩)
    (hs : t ≤ s.size) (hc : c.size < 2 * t - 1) :
    Occupied t P n ⟨p, ka ++ x :: kb,
      A ++ c.joined k (s.first s.id) :: s.rest :: B⟩ := by
  obtain ⟨hcs, hcocc⟩ := h.kid (by simp : c ∈ A ++ c :: s :: B)
  have hsocc := (h.kid (by simp : s ∈ A ++ c :: s :: B)).2
  obtain ⟨hfirst, hrest⟩ := first_rest_shaped hx hsocc
  have hle := h.size_le
  simp only [Node.size_mk, List.length_append, List.length_cons] at hle
  refine Occupied.middle (M := [c, s])
    (N := [c.joined k (s.first s.id), s.rest]) h ?_ ?_ ?_
  · simp only [List.length_append, List.length_cons]
    omega
  · simp only [List.length_append, List.length_cons, List.length_nil]
  · intro y hy
    simp only [List.mem_cons, List.not_mem_nil, or_false] at hy
    rcases hy with rfl | rfl
    · refine ⟨?_, hcocc.joined hfirst ?_⟩
      · simp only [Node.size, Node.joined, List.length_append] at hcs ⊢
        omega
      · simp only [Node.first, Node.size_mk, List.length_nil]
        omega
    · refine ⟨?_, hrest⟩
      simp only [Node.size, Node.rest, List.length_drop] at hs ⊢
      omega

end Occupied

theorem wf_merge {t : Nat}
    (h : WF t (n + 1) ⟨p, ka ++ k :: kb, A ++ c :: s :: B⟩)
    (hsize : c.size + s.size + 1 ≤ 2 * t - 1) :
    WF t (n + 1) ⟨p, ka ++ kb, A ++ c.joined k s :: B⟩ :=
  wf_iff_occupied.mpr (occupied_merge (wf_iff_occupied.mp h) hsize)

theorem ids_split {t : Nat} (z : Nat) {K : List α} (ht : 1 ≤ t)
    (hk : c.keys.drop (t - 1) = k :: K) :
    (ids (n + 1) ⟨p, ka ++ k :: kb,
        A ++ c.splitLeft t :: c.splitRight t z :: B⟩).Perm
      (z :: ids (n + 1) ⟨p, ka ++ kb, A ++ c :: B⟩) := by
  have hcut := ids_joined n (c.splitLeft t) (c.splitRight t z) k
  rw [← eq_splitLeft_joined z ht hk] at hcut
  refine ids_middle (X := []) (Y := [z]) (N := [c])
    (M := [c.splitLeft t, c.splitRight t z]) ?_
  simpa [Node.splitRight] using hcut.symm

theorem ids_merge :
    (ids (n + 1) ⟨p, ka ++ kb, A ++ c.joined k s :: B⟩ ++ [s.id]).Perm
      (ids (n + 1) ⟨p, ka ++ k :: kb, A ++ c :: s :: B⟩) := by
  have hmid : ([s.id] ++ ids (n + 1) ⟨p, ka ++ kb, A ++ ([c.joined k s] ++ B)⟩).Perm
      ([] ++ ids (n + 1) ⟨p, ka ++ k :: kb, A ++ ([c, s] ++ B)⟩) :=
    ids_middle (by simpa using ids_joined n c s k)
  exact List.perm_append_comm.trans hmid

theorem ids_rotateRight (hx : s.keys.getLast? = some x) :
    (ids (n + 1) ⟨p, ka ++ x :: kb,
        A ++ s.init :: (s.last c.id).joined k c :: B⟩).Perm
      (ids (n + 1) ⟨p, ka ++ k :: kb, A ++ s :: c :: B⟩) := by
  have hs := ids_joined n s.init (s.last c.id) x
  rw [← eq_init_joined c.id hx] at hs
  have hc := ids_joined n (s.last c.id) c k
  refine ids_middle (X := []) (Y := []) (N := [s, c])
    (M := [s.init, (s.last c.id).joined k c]) ?_
  have hcons : (c.id :: (ids n s.init ++
      ids n ((s.last c.id).joined k c))).Perm (c.id :: (ids n s ++ ids n c)) :=
    calc (c.id :: (ids n s.init ++ ids n ((s.last c.id).joined k c))).Perm
          (ids n s.init ++ c.id :: ids n ((s.last c.id).joined k c)) :=
            List.perm_middle.symm
      List.Perm _ (ids n s.init ++ (ids n (s.last c.id) ++ ids n c)) :=
            hc.append_left _
      List.Perm _ ((c.id :: ids n s) ++ ids n c) := by
            rw [← List.append_assoc]
            exact hs.symm.append_right _
  simpa using hcons.cons_inv

theorem ids_rotateLeft (hx : s.keys.head? = some x) :
    (ids (n + 1) ⟨p, ka ++ x :: kb,
        A ++ c.joined k (s.first s.id) :: s.rest :: B⟩).Perm
      (ids (n + 1) ⟨p, ka ++ k :: kb, A ++ c :: s :: B⟩) := by
  have hs := ids_joined n (s.first s.id) s.rest x
  rw [← eq_first_joined hx] at hs
  have hc := ids_joined n c (s.first s.id) k
  refine ids_middle (X := []) (Y := []) (N := [c, s])
    (M := [c.joined k (s.first s.id), s.rest]) ?_
  have hcons : (s.id :: (ids n (c.joined k (s.first s.id)) ++
      ids n s.rest)).Perm (s.id :: (ids n c ++ ids n s)) :=
    calc (s.id :: (ids n (c.joined k (s.first s.id)) ++ ids n s.rest)).Perm
          ((ids n c ++ ids n (s.first s.id)) ++ ids n s.rest) :=
            hc.append_right _
      List.Perm _ (ids n c ++ s.id :: ids n s) := by
            rw [List.append_assoc]
            exact hs.symm.append_left _
      List.Perm _ (s.id :: (ids n c ++ ids n s)) := List.perm_middle
  simpa using hcons.cons_inv

end Keep

end ParallelBTree.Verified.Multiway
