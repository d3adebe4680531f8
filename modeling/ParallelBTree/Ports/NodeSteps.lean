import ParallelBTree.Ports.Represent

/-!
# What the member functions do to the nodes they touch

`borrowFromPrev`, `borrowFromNext`, `merge` and `splitChild`, each run to its
end on nodes given by their live slots.  The results are again given by live
slots; whatever else the arrays hold is left open.

The three nodes of a call are a `Trio`.  The statements that stand behind a leaf
test come first, one lemma each: for a leaf they do nothing, and every claim
about child pointers is empty.
-/

namespace ParallelBTree.Ports.Represent

open ParallelBTree.Verified.Program
open ParallelBTree.Verified.Slots
open ParallelBTree.Ports.NodeMemory

section Guarded

variable {S : BTreeNode → Mem} {q r : Addr} {t n : Nat} {leaf : Bool}
  {X : List (Option Int)} {nd nr : BTreeNode} {P : List Addr}

/-- The child pointers move one place up, unless the node is a leaf. -/
private theorem guarded_kids_up (F : Focus q S)
    (h : Cells t leaf n X ((P.map some).map some) nd)
    (hP : leaf = false → P.length = n + 1)
    (hroom : leaf = false → P.length < 2 * t) :
    ∃ nd' e, onlyIf (!nd.leaf) (do
        forDown ((← node q).keysnum + 1) 0 fun i => copyChild q i q (i + 1))
        (S nd) = .ok ((), S nd') ∧
      Cells t leaf n X (e :: (P.map some).map some) nd' := by
  cases leaf with
  | true =>
      rw [onlyIf_neg (by simp [h.leaf_eq])]
      exact ⟨nd, none, rfl, h.of_leaf⟩
  | false =>
      have hlen := hP rfl
      obtain ⟨D, hD, hroomy⟩ := h.extend_kids 1 fun _ => by
        simp only [List.length_map]
        exact hroom rfl
      obtain ⟨d, rfl⟩ := List.length_eq_one_iff.mp hD
      obtain ⟨nd', e, hrun, hnd'⟩ := F.kids_up 0 (nd.keysnum + 1) (B := [])
        hroomy rfl (by simp [hlen, h.keysnum_eq])
      rw [onlyIf_pos (by simp [h.leaf_eq]), bind_run_ok (node_run (F.get nd))]
      exact ⟨nd', e, hrun, hnd'⟩

/-- The child pointers but the first move one place down, unless the node is a
leaf. -/
private theorem guarded_kids_down (F : Focus q S)
    (h : Cells t leaf n X ((P.map some).map some) nd)
    (hP : leaf = false → P.length = n + 1) :
    ∃ nd', onlyIf (!nd.leaf) (do
        forUp 1 ((← node q).keysnum + 1) fun i => copyChild q i q (i - 1))
        (S nd) = .ok ((), S nd') ∧
      Cells t leaf n X (((P.drop 1).map some).map some) nd' := by
  cases leaf with
  | true =>
      rw [onlyIf_neg (by simp [h.leaf_eq])]
      exact ⟨nd, rfl, h.of_leaf⟩
  | false =>
      have hlen := hP rfl
      cases P with
      | nil => simp at hlen
      | cons u P =>
          obtain ⟨nd', hrun, hnd'⟩ := F.kids_down 1 (nd.keysnum + 1) (B := [])
            h rfl (by
              simp only [List.length_cons, List.length_nil, List.length_map]
                at hlen ⊢
              rw [h.keysnum_eq]
              omega)
          rw [onlyIf_pos (by simp [h.leaf_eq]), bind_run_ok (node_run (F.get nd))]
          exact ⟨nd', hrun, hnd'⟩

/-- The child pointers of `r` are appended to those of `q`, unless they are
leaves. -/
private theorem guarded_kids_from (F : Focus q S) {R : List Addr} {l : Nat}
    {V : List (Option Int)} (hr : ∀ nd, (S nd).get r = some nr)
    (h : Cells t leaf n X ((P.map some).map some) nd)
    (hnr : Cells t leaf l V ((R.map some).map some) nr)
    (hP : leaf = false → P.length = t) (hR : leaf = false → R.length = l + 1)
    (hroom : leaf = false → P.length + R.length ≤ 2 * t) :
    ∃ nd', onlyIf (!nd.leaf) (do
        forUp 0 ((← node r).keysnum + 1) fun i => copyChild r i q (i + t))
        (S nd) = .ok ((), S nd') ∧
      Cells t leaf n X (((P ++ R).map some).map some) nd' := by
  cases leaf with
  | true =>
      rw [onlyIf_neg (by simp [h.leaf_eq])]
      exact ⟨nd, rfl, h.of_leaf⟩
  | false =>
      obtain ⟨W, hW⟩ := hnr.children rfl
      obtain ⟨D, hD, hroomy⟩ := h.extend_kids R.length fun _ => by
        simp only [List.length_map]
        exact hroom rfl
      obtain ⟨nd', hrun, hnd'⟩ := F.kids_from (nr.keysnum + 1) 0 t hr
        (V := []) (P := R.map some) hW rfl hroomy (by simp [hP rfl])
        (by simp [hD]) (by simp [hR rfl, hnr.keysnum_eq])
      rw [onlyIf_pos (by simp [h.leaf_eq]), bind_run_ok (node_run (hr nd))]
      refine ⟨nd', hrun, ?_⟩
      simpa only [List.map_append] using hnd'

end Guarded

/-- Deleting a node that is marked as a leaf deletes nothing else. -/
theorem delete_leaf_run {m : Mem} {s : Addr} {ns : BTreeNode}
    (hs : m.get s = some ns) (hleaf : ns.leaf = true) :
    BTreeNode.delete m.nodes.length (some s) m = .ok ((), m.release s) := by
  have hpos : 0 < m.nodes.length := Nat.zero_lt_of_lt (Mem.lt_of_get hs)
  obtain ⟨l, hl⟩ := Nat.exists_eq_add_one_of_ne_zero hpos.ne'
  rw [hl, BTreeNode.delete, bind_run_ok (node_run hs),
    onlyIf_neg (by simp [hleaf])]
  rfl

section Siblings

variable {m : Mem} {t : Nat} {leaf : Bool} {p c s : Addr}
  {np nc ns : BTreeNode} {ka kb ck sk : List Int} {k x : Int}
  {PP CP SP : List Addr}

private theorem record_with3 (fn : Fn) (idx : Nat) (arg : Ptr)
    (hp : m.get p = some np) (hc : m.get c = some nc) (hs : m.get s = some ns) :
    record fn none p idx arg m =
      .ok ((), (m.logs [.call ⟨fn, none, idx, arg, m.view p⟩]).with3 p c s
        np nc ns) := by
  have heq : ∀ es, m.logs es = (m.logs es).with3 p c s np nc ns :=
    fun _ => Trio.eq_with3 hp hc hs
  rw [← heq]
  rfl

/-- What `borrowFromPrev` copies out of slot `keysnum` of the sibling: its last
child pointer, or the unwritten slot of a leaf. -/
private theorem copy_last {ev : Event} {l : Nat} {X : List (Option Int)}
    {e : Option Ptr} (h : Trio (m.logs [ev]) p c s)
    (hnc : Cells t leaf l X (e :: (CP.map some).map some) nc)
    (hns : Holds t leaf (sk ++ [x]) SP ns)
    (hSP : leaf = false → SP.length = sk.length + 2) :
    ∃ nc', copyChild s (sk.length + 1) c 0
        ((m.logs [ev]).with3 p c s np nc ns) =
        .ok ((), (m.logs (ev :: if leaf then
          [.unwritten s (sk.length + 1)] else [])).with3 p c s np nc' ns) ∧
      Cells t leaf l X
        (((SP.drop (sk.length + 1) ++ CP).map some).map some) nc' := by
  cases leaf with
  | true =>
      have hle := hns.length_le
      simp only [List.length_map, List.length_append, List.length_singleton]
        at hle
      obtain ⟨nc', hrun, hnc'⟩ := (h.focus_c np ns).copyChild_unwritten (j := 0)
        hnc h.get_s (hns.kid_unwritten (i := sk.length + 1) (by omega)) (by omega)
      refine ⟨nc', ?_, hnc'.of_leaf⟩
      rw [hrun]
      simp [Mem.log, Mem.logs, Mem.with3, Mem.set]
  | false =>
      have hlt : sk.length + 1 < SP.length := by
        rw [hSP rfl]
        omega
      have hdrop : SP.drop (sk.length + 1) = [SP[sk.length + 1]] := by
        rw [List.drop_eq_getElem_cons hlt, List.drop_eq_nil_of_le (by
          rw [hSP rfl])]
      obtain ⟨nc', hrun, hnc'⟩ := (h.focus_c np ns).copyChild_run (j := 0)
        (B := []) hnc h.get_s (hns.kid_at (List.getElem?_eq_getElem hlt)) rfl
      refine ⟨nc', ?_, by simpa [hdrop] using hnc'⟩
      rw [hrun]
      rfl

/-- The last key of the sibling `s` goes up to `p`, and the key of `p` between
them down to the front of `c`. -/
theorem borrowFromPrev_run (h : Trio m p c s) (hp : m.get p = some np)
    (hc : m.get c = some nc) (hs : m.get s = some ns)
    (hnp : Holds t false (ka ++ k :: kb) PP np)
    (hnc : Holds t leaf ck CP nc) (hns : Holds t leaf (sk ++ [x]) SP ns)
    (hPs : PP[ka.length]? = some s) (hPc : PP[ka.length + 1]? = some c)
    (hCP : leaf = false → CP.length = ck.length + 1)
    (hSP : leaf = false → SP.length = sk.length + 2)
    (hroom : ck.length < 2 * t - 1) :
    Returns (BTreeNode.borrowFromPrev p (ka.length + 1)) m fun _ m' =>
      ∃ np' nc' ns', m' = (m.logs (.call ⟨.borrowFromPrev, none,
          ka.length + 1, none, m.view p⟩ ::
            if leaf then [.unwritten s (sk.length + 1)] else [])).with3 p c s
          np' nc' ns' ∧
        Holds t false (ka ++ x :: kb) PP np' ∧
        Holds t leaf (k :: ck) (SP.drop (sk.length + 1) ++ CP) nc' ∧
        Holds t leaf sk (SP.take (sk.length + 1)) ns' := by
  unfold BTreeNode.borrowFromPrev
  have hrec := record_with3 .borrowFromPrev (ka.length + 1) none hp hc hs
  generalize Event.call ⟨.borrowFromPrev, none, ka.length + 1, none,
    m.view p⟩ = ev at hrec ⊢
  have h0 : Trio (m.logs [ev]) p c s := { h with }
  have hidx : ka.length + 1 - 1 = ka.length := Nat.add_sub_cancel _ _
  have hsnum : ns.keysnum = sk.length + 1 := by simp [hns.keysnum_eq]
  apply Returns.step hrec
  apply Returns.step (child_run h0.get_p (hnp.kid_at hPc))
  apply Returns.step (below_run (by omega))
  rw [hidx]
  apply Returns.step (child_run h0.get_p (hnp.kid_at hPs))
  apply Returns.step (node_run h0.get_c)
  -- the child makes room at the front
  obtain ⟨d, hroomy⟩ := hnc.extend (by simpa using hroom)
  obtain ⟨c₁, w, hrun, hc₁⟩ := (h0.focus_c np ns).keys_up 0 nc.keysnum
    (A := []) hroomy rfl (by simp [hnc.keysnum_eq])
  apply Returns.step hrun
  apply Returns.step (node_run h0.get_c)
  obtain ⟨c₂, e, hrun, hc₂⟩ := guarded_kids_up (h0.focus_c np ns) hc₁ hCP
    fun hl => by
      have := hCP hl
      omega
  apply Returns.step hrun
  -- the parent's key comes down, the sibling's last pointer goes over
  apply Returns.step (below_run (by omega))
  rw [hidx]
  obtain ⟨c₃, hrun, hc₃⟩ := (h0.focus_c np ns).copyKey_run (j := 0) (A := [])
    hc₂ h0.get_p (hnp.key_at (i := ka.length) (v := k) (by simp)) rfl
  apply Returns.step hrun
  apply Returns.step (node_run h0.get_p)
  obtain ⟨c₄, hrun, hc₄⟩ := copy_last h0 hc₃ hns hSP
  rw [onlyIf_pos (by simp [hnp.leaf_eq])]
  refine .bind (.step (node_run h0.get_s) ?_)
  rw [hsnum]
  refine .of_ok hrun ?_
  -- the sibling's last key goes up
  have h1 : Trio (m.logs (ev :: if leaf then
    [.unwritten s (sk.length + 1)] else [])) p c s := { h with }
  apply Returns.step (node_run h1.get_s)
  apply Returns.step (below_run (by omega))
  apply Returns.step (below_run (by omega))
  rw [hidx, hsnum, Nat.add_sub_cancel]
  obtain ⟨p₁, hrun, hp₁⟩ := (h1.focus_p c₄ ns).copyKey_run (j := ka.length)
    hnp.cut h1.get_s (hns.key_at (i := sk.length) (v := x) (by simp)) (by simp)
  apply Returns.step hrun
  apply Returns.step (node_run h1.get_c)
  obtain ⟨c₅, hrun, hc₅⟩ := (h1.focus_c p₁ ns).setKeysnum_run hc₄
    (c₄.keysnum + 1)
  apply Returns.step hrun
  apply Returns.step (node_run h1.get_s)
  apply Returns.step (below_run (by omega))
  rw [hsnum, Nat.add_sub_cancel]
  obtain ⟨s₁, hrun, hs₁⟩ := (h1.focus_s p₁ c₅).setKeysnum_run hns sk.length
  refine .of_ok hrun ⟨p₁, c₅, s₁, rfl, ?_, ?_, ?_⟩
  · exact .of_cells hp₁ (by simp) (by simp) fun _ => rfl
  · exact .of_cells hc₅ (by simp [hc₄.keysnum_eq]) rfl fun _ => rfl
  · have hcut : (SP.map some).map some =
        ((SP.take (sk.length + 1)).map some).map some ++
          ((SP.drop (sk.length + 1)).map some).map some := by
      rw [← List.map_append, ← List.map_append, List.take_append_drop]
    rw [List.map_append, hcut] at hs₁
    exact hs₁.shrink.shrink_kids

/-- The first key of the sibling `s` goes up to `p`, and the key of `p` between
them down to the end of `c`. -/
theorem borrowFromNext_run (h : Trio m p c s) (hp : m.get p = some np)
    (hc : m.get c = some nc) (hs : m.get s = some ns)
    (hnp : Holds t false (ka ++ k :: kb) PP np)
    (hnc : Holds t leaf ck CP nc) (hns : Holds t leaf (x :: sk) SP ns)
    (hPc : PP[ka.length]? = some c) (hPs : PP[ka.length + 1]? = some s)
    (hCP : leaf = false → CP.length = ck.length + 1)
    (hSP : leaf = false → SP.length = sk.length + 2)
    (hroom : ck.length < 2 * t - 1) :
    Returns (BTreeNode.borrowFromNext p ka.length) m fun _ m' =>
      ∃ np' nc' ns', m' = (m.logs [.call ⟨.borrowFromNext, none,
          ka.length, none, m.view p⟩]).with3 p c s np' nc' ns' ∧
        Holds t false (ka ++ x :: kb) PP np' ∧
        Holds t leaf (ck ++ [k]) (CP ++ SP.take 1) nc' ∧
        Holds t leaf sk (SP.drop 1) ns' := by
  unfold BTreeNode.borrowFromNext
  have hrec := record_with3 .borrowFromNext ka.length none hp hc hs
  generalize Event.call ⟨.borrowFromNext, none, ka.length, none, m.view p⟩ =
    ev at hrec ⊢
  have h0 : Trio (m.logs [ev]) p c s := { h with }
  apply Returns.step hrec
  apply Returns.step (child_run h0.get_p (hnp.kid_at hPc))
  apply Returns.step (child_run h0.get_p (hnp.kid_at hPs))
  apply Returns.step (node_run h0.get_c)
  -- the parent's key comes down, the sibling's first pointer goes over
  obtain ⟨d, hroomy⟩ := hnc.extend (by simpa using hroom)
  obtain ⟨c₁, hrun, hc₁⟩ := (h0.focus_c np ns).copyKey_run (j := nc.keysnum)
    hroomy h0.get_p (hnp.key_at (i := ka.length) (v := k) (by simp))
    (by simp [hnc.keysnum_eq])
  apply Returns.step hrun
  apply Returns.step (node_run h0.get_c)
  obtain ⟨c₂, hrun, hc₂⟩ : ∃ c₂, onlyIf (!c₁.leaf) (do
        copyChild s 0 c ((← node c).keysnum + 1))
        ((m.logs [ev]).with3 p c s np c₁ ns) =
          .ok ((), (m.logs [ev]).with3 p c s np c₂ ns) ∧
      Cells t leaf ck.length (ck.map some ++ [some k])
        (((CP ++ SP.take 1).map some).map some) c₂ := by
    cases leaf with
    | true =>
        rw [onlyIf_neg (by simp [hc₁.leaf_eq])]
        exact ⟨c₁, rfl, hc₁.of_leaf⟩
    | false =>
        have hlen := hCP rfl
        cases SP with
        | nil => simp at hSP
        | cons q SP =>
            obtain ⟨D, hD, hroomy⟩ := hc₁.extend_kids 1 fun _ => by
              simp only [List.length_map]
              omega
            obtain ⟨e, rfl⟩ := List.length_eq_one_iff.mp hD
            rw [onlyIf_pos (by simp [hc₁.leaf_eq]),
              bind_run_ok (node_run h0.get_c)]
            obtain ⟨c₂, hrun, hc₂⟩ := (h0.focus_c np ns).copyChild_run
              (j := c₁.keysnum + 1) hroomy h0.get_s
              (hns.kid_at (i := 0) (q := q) rfl) (by simp [hlen, hc₁.keysnum_eq])
            exact ⟨c₂, hrun, by simpa using hc₂⟩
  apply Returns.step hrun
  -- the sibling's first key goes up, the others close the gap
  obtain ⟨p₁, hrun, hp₁⟩ := (h0.focus_p c₂ ns).copyKey_run (j := ka.length)
    hnp.cut h0.get_s (hns.key_at (i := 0) (v := x) rfl) (by simp)
  apply Returns.step hrun
  apply Returns.step (node_run h0.get_s)
  obtain ⟨s₁, hrun, hs₁⟩ := (h0.focus_s p₁ c₂).keys_down 1 ns.keysnum (A := [])
    (K := sk) hns rfl (by simp [hns.keysnum_eq, Nat.add_comm])
  apply Returns.step hrun
  apply Returns.step (node_run h0.get_s)
  obtain ⟨s₂, hrun, hs₂⟩ := guarded_kids_down (h0.focus_s p₁ c₂) hs₁ hSP
  apply Returns.step hrun
  apply Returns.step (node_run h0.get_c)
  obtain ⟨c₃, hrun, hc₃⟩ := (h0.focus_c p₁ s₂).setKeysnum_run hc₂
    (c₂.keysnum + 1)
  apply Returns.step hrun
  apply Returns.step (node_run h0.get_s)
  have hsnum : s₂.keysnum = sk.length + 1 := by simp [hs₂.keysnum_eq]
  apply Returns.step (below_run (by omega))
  rw [hsnum, Nat.add_sub_cancel]
  obtain ⟨s₃, hrun, hs₃⟩ := (h0.focus_s p₁ c₃).setKeysnum_run hs₂ sk.length
  refine .of_ok hrun ⟨p₁, c₃, s₃, rfl, ?_, ?_, ?_⟩
  · exact .of_cells hp₁ (by simp) (by simp) fun _ => rfl
  · exact .of_cells hc₃ (by simp [hc₂.keysnum_eq]) (by simp) fun _ => rfl
  · exact .of_cells hs₃ rfl rfl fun _ => rfl

/-- `c`, the key of `p` and the sibling `s` go into `c`, and `s` is deleted. -/
theorem merge_run (h : Trio m p c s) (hp : m.get p = some np)
    (hc : m.get c = some nc) (hs : m.get s = some ns) {PA PB : List Addr}
    (hnp : Holds t false (ka ++ k :: kb) (PA ++ c :: s :: PB) np)
    (hPA : PA.length = ka.length) (hPB : PB.length = kb.length)
    (hnc : Holds t leaf ck CP nc) (hns : Holds t leaf sk SP ns)
    (hCP : leaf = false → CP.length = ck.length + 1)
    (hSP : leaf = false → SP.length = sk.length + 1)
    (hck : ck.length + 1 = t) (hsk : sk.length + 1 = t) :
    Returns (BTreeNode.merge p ka.length) m fun _ m' =>
      ∃ np' nc' ns', m' = ((m.logs [.call ⟨.merge, none, ka.length, none,
          m.view p⟩]).with3 p c s np' nc' ns').release s ∧
        Holds t false (ka ++ kb) (PA ++ c :: PB) np' ∧
        Holds t leaf (ck ++ k :: sk) (CP ++ SP) nc' := by
  unfold BTreeNode.merge
  have hrec := record_with3 .merge ka.length none hp hc hs
  generalize Event.call ⟨.merge, none, ka.length, none, m.view p⟩ = ev
    at hrec ⊢
  have h0 : Trio (m.logs [ev]) p c s := { h with }
  have hPc : (PA ++ c :: s :: PB)[ka.length]? = some c := by simp [← hPA]
  have hPs : (PA ++ c :: s :: PB)[ka.length + 1]? = some s := by simp [← hPA]
  apply Returns.step hrec
  apply Returns.step (node_run h0.get_p)
  apply Returns.step (child_run h0.get_p (hnp.kid_at hPc))
  apply Returns.step (child_run h0.get_p (hnp.kid_at hPs))
  rw [hnp.t_eq]
  -- the parent's key and the sibling's keys go behind the child's own
  obtain ⟨D, hD, hroomy⟩ := hnc.extend_many (sk.length + 1) (by
    rw [List.length_map]
    omega)
  obtain ⟨d, D, rfl⟩ : ∃ d D', D = d :: D' := by
    cases D with
    | nil => simp at hD
    | cons d D => exact ⟨d, D, rfl⟩
  obtain ⟨c₁, hrun, hc₁⟩ := (h0.focus_c np ns).copyKey_run (j := t - 1)
    hroomy h0.get_p (hnp.key_at (i := ka.length) (v := k) (by simp))
    (by rw [List.length_map]; omega)
  apply Returns.step hrun
  apply Returns.step (node_run h0.get_s)
  have hc₁' : Cells t leaf ck.length ((ck.map some ++ [some k]) ++ D)
      ((CP.map some).map some) c₁ := by simpa using hc₁
  obtain ⟨R, hR⟩ := hns.keys
  obtain ⟨c₂, hrun, hc₂⟩ := (h0.focus_c np ns).keys_from ns.keysnum 0 t
    (fun _ => h0.get_s) (P := []) hR rfl hc₁' (by simp [hck])
    (by simpa using hD) (by rw [hns.keysnum_eq])
  apply Returns.step hrun
  apply Returns.step (node_run h0.get_c)
  obtain ⟨c₃, hrun, hc₃⟩ := guarded_kids_from (h0.focus_c np ns)
    (fun _ => h0.get_s) hc₂ hns
    (fun hl => by rw [hCP hl]; exact hck) hSP
    (fun hl => by rw [hCP hl, hSP hl]; omega)
  apply Returns.step hrun
  -- the parent closes both gaps
  apply Returns.step (node_run h0.get_p)
  obtain ⟨p₁, hrun, hp₁⟩ := (h0.focus_p c₃ ns).keys_down (ka.length + 1)
    np.keysnum hnp.cut (by simp) (by simp [hnp.keysnum_eq]; omega)
  apply Returns.step hrun
  apply Returns.step (node_run h0.get_p)
  have hp₁' : Cells t false (ka ++ k :: kb).length (ka.map some ++ kb.map some)
      ((((PA ++ [c]).map some).map some) ++ some (some s) ::
        (PB.map some).map some) p₁ := by simpa using hp₁
  obtain ⟨p₂, hrun, hp₂⟩ := (h0.focus_p c₃ ns).kids_down (ka.length + 2)
    (p₁.keysnum + 1) hp₁' (by simp [hPA])
    (by simp [hp₁.keysnum_eq, hPA, hPB]; omega)
  apply Returns.step hrun
  -- the counts
  apply Returns.step (node_run h0.get_c)
  apply Returns.step (node_run h0.get_s)
  obtain ⟨c₄, hrun, hc₄⟩ := (h0.focus_c p₂ ns).setKeysnum_run hc₃
    (c₃.keysnum + (ns.keysnum + 1))
  apply Returns.step hrun
  apply Returns.step (node_run h0.get_p)
  have hpnum : p₂.keysnum = (ka ++ kb).length + 1 := by
    simp [hp₂.keysnum_eq]
    omega
  apply Returns.step (below_run (by omega))
  rw [hpnum, Nat.add_sub_cancel]
  obtain ⟨p₃, hrun, hp₃⟩ := (h0.focus_p c₄ ns).setKeysnum_run hp₂
    (ka ++ kb).length
  apply Returns.step hrun
  -- the sibling goes, and nothing below it
  obtain ⟨s₁, hrun, hs₁⟩ : ∃ s₁, setLeaf s true
      ((m.logs [ev]).with3 p c s p₃ c₄ ns) =
        .ok ((), (m.logs [ev]).with3 p c s p₃ c₄ s₁) ∧ s₁.leaf = true :=
    ⟨_, (h0.focus_s p₃ c₄).setLeaf_run true, rfl⟩
  apply Returns.step hrun
  apply Returns.step (get_run _)
  refine .of_ok (delete_leaf_run h0.get_s hs₁) ⟨p₃, c₄, s₁, rfl, ?_, ?_⟩
  · exact .of_cells hp₃ rfl (by simp) fun _ => by simp
  · exact .of_cells hc₄ (by simp [hc₃.keysnum_eq, hns.keysnum_eq]) (by simp)
      fun _ => rfl

end Siblings

section Split

variable {m : Mem} {t : Nat} {leaf : Bool} {p y : Addr} {np ny : BTreeNode}
  {ka kb yl yr : List Int} {k : Int} {PA PB YL YR : List Addr}

/-- A third node next to two old ones. -/
theorem Trio.of_push (hpy : p ≠ y) (hp : m.get p = some np)
    (hy : m.get y = some ny) (hm : m.nodes.length ∉ m.deleted)
    (nd : BTreeNode) : Trio (m.push nd) p y m.nodes.length where
  p_ne_c := hpy
  p_ne_s := (Mem.lt_of_get hp).ne
  c_ne_s := (Mem.lt_of_get hy).ne
  p_alive := ⟨np, (Mem.get_push_lt (Mem.lt_of_get hp)).trans hp⟩
  c_alive := ⟨ny, (Mem.get_push_lt (Mem.lt_of_get hy)).trans hy⟩
  s_alive := ⟨nd, Mem.get_push_self hm⟩

/-- The full node `y` keeps its first `t - 1` keys; the middle one goes up to
`p`, and what is behind it into a new node. -/
theorem splitChild_run (hpy : p ≠ y) (hp : m.get p = some np)
    (hy : m.get y = some ny) (hm : m.nodes.length ∉ m.deleted)
    (hnp : Holds t false (ka ++ kb) (PA ++ y :: PB) np)
    (hPA : PA.length = ka.length) (hPB : PB.length = kb.length)
    (hny : Holds t leaf (yl ++ k :: yr) (YL ++ YR) ny)
    (hyl : yl.length + 1 = t) (hyr : yr.length + 1 = t)
    (hYL : leaf = false → YL.length = t) (hYR : leaf = false → YR.length = t)
    (hroom : (ka ++ kb).length < 2 * t - 1) :
    Returns (BTreeNode.splitChild p ka.length y) m fun _ m' =>
      ∃ np' ny' nz', m' = ((m.logs [.call ⟨.splitChild, none, ka.length,
          some y, m.view p⟩]).push (.new t leaf)).with3 p y m.nodes.length
          np' ny' nz' ∧
        Holds t false (ka ++ k :: kb) (PA ++ y :: m.nodes.length :: PB) np' ∧
        Holds t leaf yl YL ny' ∧ Holds t leaf yr YR nz' := by
  unfold BTreeNode.splitChild
  have hrec : record .splitChild none p ka.length (some y) m = .ok ((),
      m.logs [.call ⟨.splitChild, none, ka.length, some y, m.view p⟩]) := rfl
  generalize Event.call ⟨.splitChild, none, ka.length, some y, m.view p⟩ = ev
    at hrec ⊢
  have hnew : newNode t leaf (m.logs [ev]) =
      .ok (m.nodes.length, (m.logs [ev]).push (.new t leaf)) := rfl
  have h0 : Trio ((m.logs [ev]).push (.new t leaf)) p y m.nodes.length :=
    Trio.of_push (m := m.logs [ev]) hpy hp hy hm (.new t leaf)
  have heq : (m.logs [ev]).push (.new t leaf) =
      ((m.logs [ev]).push (.new t leaf)).with3 p y m.nodes.length np ny
        (.new t leaf) :=
    Trio.eq_with3 ((Mem.get_push_lt (Mem.lt_of_get hp)).trans hp)
      ((Mem.get_push_lt (Mem.lt_of_get hy)).trans hy) (Mem.get_push_self hm)
  apply Returns.step hrec
  apply Returns.step (node_run (m := m.logs [ev]) hp)
  apply Returns.step (node_run (m := m.logs [ev]) hy)
  apply Returns.step (node_run (m := m.logs [ev]) hy)
  rw [hnp.t_eq, hny.t_eq, hny.leaf_eq]
  rw [heq] at hnew
  generalize m.nodes.length = z at *
  generalize (m.logs [ev]).push (.new t leaf) = m₁ at *
  apply Returns.step hnew
  -- the new node takes over what is behind the middle key
  have hz : Cells t leaf 0 ([] ++ List.replicate yr.length none)
      ([] ++ List.replicate t none) (.new t leaf) := by
    have h := Cells.new t leaf
    rw [show 2 * t - 1 = yr.length + t by omega, Nat.two_mul,
      List.replicate_add, List.replicate_add] at h
    exact h.shrink.shrink_kids
  obtain ⟨z₁, hrun, hz₁⟩ := (h0.focus_s np ny).setKeysnum_run hz (t - 1)
  apply Returns.step hrun
  obtain ⟨R, hR⟩ := hny.cut.keys
  obtain ⟨z₂, hrun, hz₂⟩ := (h0.focus_s np ny).keys_from (t - 1) t 0
    (fun _ => h0.get_c) (P := yl.map some ++ [some k]) (K := yr)
    (by simpa using hR) (by simp [hyl]) hz₁ rfl (by simp) (by omega)
  apply Returns.step hrun
  apply Returns.step (node_run h0.get_c)
  obtain ⟨z₃, hrun, hz₃⟩ : ∃ z₃, onlyIf (!ny.leaf)
        (forUp 0 t fun j => copyChild y (j + t) z j)
        (m₁.with3 p y z np ny z₂) = .ok ((), m₁.with3 p y z np ny z₃) ∧
      Cells t leaf (t - 1) (yr.map some) ((YR.map some).map some) z₃ := by
    cases leaf with
    | true =>
        rw [onlyIf_neg (by simp [hny.leaf_eq])]
        exact ⟨z₂, rfl, hz₂.of_leaf⟩
    | false =>
        obtain ⟨W, hW⟩ := hny.children rfl
        rw [onlyIf_pos (by simp [hny.leaf_eq])]
        exact (h0.focus_s np ny).kids_from t t 0 (fun _ => h0.get_c)
          (V := (YL.map some).map some) (P := YR.map some) (by simpa using hW)
          (by simp [hYL rfl]) hz₂ rfl (by simp [hYR rfl]) (by simp [hYR rfl])
  apply Returns.step hrun
  obtain ⟨y₁, hrun, hy₁⟩ := (h0.focus_c np z₃).setKeysnum_run hny (t - 1)
  apply Returns.step hrun
  -- the parent makes room for the new child and for the middle key
  apply Returns.step (node_run h0.get_p)
  have hlen : (ka ++ kb).length = ka.length + kb.length := List.length_append
  obtain ⟨D, hD, hroomy⟩ := hnp.extend_kids 1 fun _ => by
    simp only [List.length_map, List.length_append, List.length_cons]
    omega
  obtain ⟨e, rfl⟩ := List.length_eq_one_iff.mp hD
  have hp₀ : Cells t false (ka ++ kb).length ((ka ++ kb).map some)
      (((PA ++ [y]).map some).map some ++ ((PB.map some).map some ++ [e])) np := by
    simpa using hroomy
  obtain ⟨p₁, e, hrun, hp₁⟩ := (h0.focus_p y₁ z₃).kids_up (ka.length + 1)
    (np.keysnum + 1) hp₀ (by simp [hPA])
    (by simp [hPA, hPB, hnp.keysnum_eq]; omega)
  apply Returns.step hrun
  obtain ⟨p₂, hrun, hp₂⟩ := (h0.focus_p y₁ z₃).setChild_run hp₁
    (some (some z)) (i := ka.length + 1) (by simp [hPA])
  apply Returns.step hrun
  apply Returns.step (node_run h0.get_p)
  obtain ⟨d, hroomy⟩ := hp₂.extend (by simpa using hroom)
  have hp₂' : Cells t false (ka ++ kb).length
      (ka.map some ++ (kb.map some ++ [d])) (((PA ++ [y]).map some).map some ++
        some (some z) :: (PB.map some).map some) p₂ := by
    simpa using hroomy
  obtain ⟨p₃, w, hrun, hp₃⟩ := (h0.focus_p y₁ z₃).keys_up ka.length
    p₂.keysnum hp₂' (by simp) (by simp [hp₂.keysnum_eq])
  apply Returns.step hrun
  obtain ⟨p₄, hrun, hp₄⟩ := (h0.focus_p y₁ z₃).copyKey_run (j := ka.length)
    hp₃ h0.get_c (hy₁.key (i := t - 1) (v := k) (by
      rw [List.map_append, List.getElem?_append_right (by simp; omega)]
      simp [show t - 1 - yl.length = 0 by omega])) (by simp)
  apply Returns.step hrun
  apply Returns.step (node_run h0.get_p)
  obtain ⟨p₅, hrun, hp₅⟩ := (h0.focus_p y₁ z₃).setKeysnum_run hp₄
    (p₄.keysnum + 1)
  refine .of_ok hrun ⟨p₅, y₁, z₃, rfl, ?_, ?_, ?_⟩
  · exact .of_cells hp₅ (by simp [hp₄.keysnum_eq]; omega) (by simp)
      fun _ => by simp
  · rw [List.map_append, List.map_append, List.map_append] at hy₁
    exact .of_cells hy₁.shrink.shrink_kids (by omega) rfl fun _ => rfl
  · exact .of_cells hz₃ (by omega) rfl fun _ => rfl

end Split

end ParallelBTree.Ports.Represent
