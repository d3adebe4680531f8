import Mathlib.Data.List.Basic
import Mathlib.Data.List.TakeWhile

/-!
# The argument of the drivers

All five drivers take the number of requests from their only argument, with
`ss >> task_size` on an `int`.  The extraction skips blanks, takes a sign and the
digits behind it, and leaves the rest of the argument unread; it fails if there
is no digit, or if the number is not an `int`.

## Main results

* `accepted_iff` — which arguments a driver goes on with, and as what number.
-/

namespace ParallelBTree.Ports.Arguments

/-- `std::isspace`, in the locale that a program starts with. -/
def isspace (c : Char) : Bool :=
  c ∈ [' ', '\t', '\n', '\x0b', '\x0c', '\r']

/-- A sign, if there is one, and what follows. -/
def sign : List Char → List Char × List Char
  | '-' :: cs => (['-'], cs)
  | '+' :: cs => (['+'], cs)
  | cs => ([], cs)

/-- The number that a sign and digits stand for. -/
def value (sgn ds : List Char) : Int :=
  if sgn = ['-'] then -(Nat.ofDigitChars 10 ds 0 : Int)
  else (Nat.ofDigitChars 10 ds 0 : Int)

/-- `ss >> task_size`, when the stream holds `arg`. -/
def extract (arg : List Char) : Option Int32 :=
  let (sgn, cs) := sign (arg.dropWhile isspace)
  let ds := cs.takeWhile Char.isDigit
  if ds = [] then none
  else if Int32.minValue.toInt ≤ value sgn ds ∧
      value sgn ds ≤ Int32.maxValue.toInt then some (.ofInt (value sgn ds))
  else none

/-- What `main` begins with: `task_size`, or the line it writes before
`exit(1)`. -/
def task_size : List String → Except String Int32
  | [_, arg] =>
      match extract arg.toList with
      | some n => .ok n
      | none => .error ("Invalid number " ++ arg)
  | _ => .error "Too few parameters!"

/-- `arg` begins with the number `n`, behind blanks and with a sign perhaps, and
no digit follows. -/
def BeginsWith (arg : List Char) (n : Int) : Prop :=
  ∃ blanks sgn ds rest, arg = blanks ++ (sgn ++ (ds ++ rest)) ∧
    (∀ c ∈ blanks, isspace c = true) ∧ (sgn = [] ∨ sgn = ['+'] ∨ sgn = ['-']) ∧
    ds ≠ [] ∧ (∀ c ∈ ds, c.isDigit = true) ∧
    (∀ c ∈ rest.head?, c.isDigit = false) ∧ n = value sgn ds

section Extract

variable {c : Char} {cs sgn ds rest : List Char}

theorem isspace_of_isDigit (h : c.isDigit = true) : isspace c = false := by
  by_contra hspace
  have hmem : c ∈ [' ', '\t', '\n', '\x0b', '\x0c', '\r'] :=
    of_decide_eq_true (Bool.not_eq_false _ ▸ hspace)
  simp only [List.mem_cons, List.not_mem_nil, or_false] at hmem
  rcases hmem with rfl | rfl | rfl | rfl | rfl | rfl <;> exact absurd h (by decide)

/-- A sign comes off, and nothing else is one. -/
theorem sign_append (hsgn : sgn = [] ∨ sgn = ['+'] ∨ sgn = ['-'])
    (hds : ∀ c ∈ cs.head?, c.isDigit = true) : sign (sgn ++ cs) = (sgn, cs) := by
  rcases hsgn with rfl | rfl | rfl
  · cases cs with
    | nil => rfl
    | cons c cs =>
        have hdigit : c.isDigit = true := hds c rfl
        rw [List.nil_append]
        unfold sign
        split
        · rename_i heq
          obtain ⟨rfl, -⟩ := List.cons.inj heq
          exact absurd hdigit (by decide)
        · rename_i heq
          obtain ⟨rfl, -⟩ := List.cons.inj heq
          exact absurd hdigit (by decide)
        · rfl
  · rfl
  · rfl

theorem sign_spec (cs : List Char) :
    cs = (sign cs).1 ++ (sign cs).2 ∧
      ((sign cs).1 = [] ∨ (sign cs).1 = ['+'] ∨ (sign cs).1 = ['-']) := by
  unfold sign
  split <;> simp

/-- A number is an `int` if an `int` has its value. -/
theorem ofInt_eq_some_iff {v : Int} {n : Int32} :
    (if Int32.minValue.toInt ≤ v ∧ v ≤ Int32.maxValue.toInt then
      some (Int32.ofInt v) else none) = some n ↔ n.toInt = v := by
  constructor
  · intro h
    split at h
    · rename_i hrange
      rw [← Option.some.inj h]
      exact Int32.toInt_ofInt_of_le (by simpa using hrange.1)
        (by have := hrange.2; rw [Int32.toInt_maxValue] at this; omega)
    · cases h
  · rintro rfl
    rw [if_pos ⟨n.minValue_le_toInt, n.toInt_le⟩, Int32.ofInt_toInt]

theorem extract_iff {arg : List Char} {n : Int32} :
    extract arg = some n ↔ BeginsWith arg n.toInt := by
  constructor
  · intro h
    obtain ⟨hcs, hsgn⟩ := sign_spec (arg.dropWhile isspace)
    simp only [extract] at h
    split at h
    · cases h
    · rename_i hds
      refine ⟨arg.takeWhile isspace, _, _,
        (sign (arg.dropWhile isspace)).2.dropWhile Char.isDigit, ?_,
        fun c hc => List.mem_takeWhile_imp hc, hsgn, hds,
        fun c hc => List.mem_takeWhile_imp hc, ?_, ofInt_eq_some_iff.mp h⟩
      · rw [List.takeWhile_append_dropWhile, ← hcs, List.takeWhile_append_dropWhile]
      · intro c hc
        have hnot := List.head?_dropWhile_not Char.isDigit
          (sign (arg.dropWhile isspace)).2
        rw [hc] at hnot
        simpa using hnot
  · rintro ⟨blanks, sgn, ds, rest, rfl, hblanks, hsgn, hne, hdigits, hrest, hn⟩
    obtain ⟨d, ds', rfl⟩ := List.exists_cons_of_ne_nil hne
    have hd : d.isDigit = true := hdigits d List.mem_cons_self
    have hdrop : (blanks ++ (sgn ++ (d :: ds' ++ rest))).dropWhile isspace =
        sgn ++ (d :: ds' ++ rest) := by
      rw [List.dropWhile_append_of_pos hblanks]
      rcases hsgn with rfl | rfl | rfl
      · rw [List.nil_append, List.cons_append,
          List.dropWhile_cons_of_neg (by rw [isspace_of_isDigit hd]; decide)]
      · rfl
      · rfl
    have htake : (d :: ds' ++ rest).takeWhile Char.isDigit = d :: ds' := by
      rw [List.takeWhile_append_of_pos hdigits]
      cases rest with
      | nil => simp
      | cons c rest =>
          rw [List.takeWhile_cons_of_neg (by rw [hrest c rfl]; decide),
            List.append_nil]
    have hsign : sign (sgn ++ (d :: ds' ++ rest)) = (sgn, d :: ds' ++ rest) :=
      sign_append hsgn fun c hc => by
        obtain rfl : d = c := Option.some.inj hc
        exact hd
    simp only [extract, hdrop, hsign, htake, if_neg hne]
    exact ofInt_eq_some_iff.mpr hn

end Extract

theorem task_size_of_ne {argv : List String} (h : argv.length ≠ 2) :
    task_size argv = .error "Too few parameters!" := by
  unfold task_size
  split
  · exact absurd rfl h
  · rfl

/-- Which numbers a driver goes on with. -/
theorem task_size_eq_ok {argv : List String} {n : Int32} :
    task_size argv = .ok n ↔
      ∃ prog arg, argv = [prog, arg] ∧ BeginsWith arg.toList n.toInt := by
  constructor
  · intro h
    by_cases hlen : argv.length = 2
    · obtain ⟨prog, arg, rfl⟩ := List.length_eq_two.mp hlen
      refine ⟨prog, arg, rfl, extract_iff.mp ?_⟩
      cases hext : extract arg.toList with
      | none => simp [task_size, hext] at h
      | some k => simpa [task_size, hext] using h
    · rw [task_size_of_ne hlen] at h
      cases h
  · rintro ⟨prog, arg, rfl, h⟩
    simp only [task_size, extract_iff.mpr h]

/-- And what it says to others. -/
theorem task_size_eq_error {argv : List String} {line : String} :
    task_size argv = .error line ↔
      (argv.length ≠ 2 ∧ line = "Too few parameters!") ∨
      ∃ prog arg, argv = [prog, arg] ∧ line = "Invalid number " ++ arg ∧
        ∀ n : Int32, ¬ BeginsWith arg.toList n.toInt := by
  by_cases hlen : argv.length = 2
  · obtain ⟨prog, arg, rfl⟩ := List.length_eq_two.mp hlen
    cases hext : extract arg.toList with
    | none =>
        have hnone : ∀ n : Int32, ¬ BeginsWith arg.toList n.toInt := fun n hn =>
          Option.some_ne_none n ((extract_iff.mpr hn).symm.trans hext)
        simp [task_size, hext, hnone, @eq_comm _ line]
    | some n =>
        have hn := extract_iff.mp hext
        simp only [task_size, hext]
        apply iff_of_false
        · exact fun h => Except.noConfusion rfl rfl (heq_of_eq h)
        · rintro (⟨hne, -⟩ | ⟨prog', arg', hargv, -, hnone⟩)
          · exact hne rfl
          · obtain ⟨-, htail⟩ := List.cons.inj hargv
            obtain rfl := List.singleton_inj.mp htail
            exact hnone n hn
  · have hpair : ∀ prog arg, argv ≠ [prog, arg] := by
      rintro prog arg rfl
      exact hlen rfl
    simp [task_size_of_ne hlen, hlen, hpair, @eq_comm _ line]

/-- A driver goes on with `n` requests exactly if it has one argument, and that
begins with a number which is the `int` `n`.  Otherwise it says what is wrong. -/
theorem accepted_iff (argv : List String) :
    (∀ n, task_size argv = .ok n ↔
      ∃ prog arg, argv = [prog, arg] ∧ BeginsWith arg.toList n.toInt) ∧
    ∀ line, task_size argv = .error line ↔
      (argv.length ≠ 2 ∧ line = "Too few parameters!") ∨
      ∃ prog arg, argv = [prog, arg] ∧ line = "Invalid number " ++ arg ∧
        ∀ n : Int32, ¬ BeginsWith arg.toList n.toInt :=
  ⟨fun _ => task_size_eq_ok, fun _ => task_size_eq_error⟩

/-- A sign or blanks in front and letters behind do not matter; a number that is
too great does. -/
example :
    [["naive", " +12ab"], ["naive", "-7"], ["naive", "- 7"], ["naive", "2147483648"],
      ["naive"]].map task_size =
    [.ok 12, .ok (-7), .error "Invalid number - 7",
      .error "Invalid number 2147483648", .error "Too few parameters!"] := by
  decide +kernel

end ParallelBTree.Ports.Arguments
