/-
# The parts of a path

`split_path` lists the path and its ancestors below the root, each the parent of the next one.
-/
import ConfigMonitor.Cppzk.Operations
import ConfigMonitor.Lib.Ancestry

namespace ConfigMonitor

open Ancestry

namespace Operations

lemma parentPath_root : parentPath root = root := rfl

/-- The loop of `split_path` puts the ancestors in front, and the empty string. -/
lemma splitLoop_eq (n : ℕ) (q : Path) (acc : List Path) (hq : q.head? = some '/')
    (hn : q.length ≤ n) : ∃ l, splitLoop n q acc = [] :: l ++ acc ∧
      Ladder parentPath (root :: (l ++ [q])) := by
  induction n generalizing q acc with
  | zero =>
      obtain rfl := List.length_eq_zero_iff.mp (Nat.le_zero.mp hn)
      simp at hq
  | succ n ih =>
      have hslash : '/' ∈ q := List.mem_of_head? hq
      obtain ⟨p, name, rfl, hname, hdrop⟩ := exists_cut hslash
      have hpar := parentPath_cut (p := p) hname
      rw [splitLoop, hdrop]
      simp only [List.reverse_reverse]
      cases p with
      | nil =>
          refine ⟨[], ?_, ?_⟩
          · cases n <;> simp [splitLoop]
          · rw [if_pos rfl] at hpar
            simpa using hpar
      | cons c p =>
          rw [if_neg (List.cons_ne_nil c p)] at hpar
          obtain ⟨l, hl, hladder⟩ := ih (c :: p) ((c :: p) :: acc) (by simpa using hq) (by
            simp only [List.length_append, List.length_cons] at hn ⊢
            omega)
          refine ⟨l ++ [c :: p], by simp [hl], ?_⟩
          rw [← List.cons_append]
          refine List.isChain_append.mpr ⟨hladder, List.isChain_singleton _, fun x hx y hy => ?_⟩
          rw [← List.cons_append, List.getLast?_concat] at hx
          obtain rfl := Option.some.inj hx
          obtain rfl := Option.some.inj hy
          exact hpar

/-- `split_path` of a path that begins with a slash: the path and its ancestors. -/
theorem splitPath_eq {q : Path} (hq : q.head? = some '/') : ∃ l,
    splitPath q = some (l ++ [q]) ∧ Ladder parentPath (root :: (l ++ [q])) := by
  have hslash : 0 < q.count '/' := List.count_pos_iff.mpr (List.mem_of_head? hq)
  rw [splitPath]
  split
  · omega
  · rename_i hone
    obtain ⟨p, name, rfl, hname, -⟩ := exists_cut (List.mem_of_head? hq)
    have hpar := parentPath_cut (p := p) hname
    cases p with
    | nil =>
        rw [if_pos rfl] at hpar
        exact ⟨[], rfl, by simpa using hpar⟩
    | cons c p =>
        obtain rfl : c = '/' := by simpa using hq
        simp [List.count_append] at hone
  · obtain ⟨l, hl, hladder⟩ := splitLoop_eq q.length q [] hq le_rfl
    exact ⟨l, by simp [hl], hladder⟩

/-! ## The ancestors of a valid path are valid -/

/-- What is before a slash is checked as if the path ended there. -/
lemma validFrom_left {seq : Bool} {p₂ p₁ : Char} {a b : Str}
    (h : validFrom seq p₂ p₁ (a ++ '/' :: b) = true) :
    validFrom false p₂ p₁ a = true ∧ (p₁ :: a).getLast? ≠ some '/' := by
  induction a generalizing p₂ p₁ with
  | nil =>
      refine ⟨rfl, fun hlast => ?_⟩
      obtain rfl : p₁ = '/' := by simpa using hlast
      simp [validFrom] at h
  | cons c a ih =>
      have hends : ((a ++ '/' :: b).isEmpty && !seq || (a ++ '/' :: b).head? == some '/') =
          (a.isEmpty && !false || a.head? == some '/') := by
        cases a <;> simp
      rw [List.cons_append, validFrom, hends] at h
      rw [validFrom, List.getLast?_cons_cons]
      split_ifs at h ⊢ <;> exact ih h

lemma validFrom_of_isValidPath {seq : Bool} {a : Str} (h : isValidPath ('/' :: a) seq = true)
    (ha : a ≠ []) : validFrom seq '/' '/' a = true := by
  rw [isValidPath] at h
  split_ifs at h <;> simp_all

/-- A path with a doubled slash is not valid. -/
lemma isValidPath_double (a b : Str) (seq : Bool) :
    isValidPath ('/' :: a ++ '/' :: '/' :: b) seq = false := by
  rw [Bool.eq_false_iff]
  intro h
  have hsplit : a ++ '/' :: '/' :: b = (a ++ ['/']) ++ '/' :: b := by simp
  rw [List.cons_append, hsplit] at h
  have hlast := (validFrom_left (validFrom_of_isValidPath h (by simp))).2
  rw [← List.cons_append, List.getLast?_concat] at hlast
  exact hlast rfl

/-- What is before a slash of a valid path, and is not empty, is a valid path below the root. -/
lemma isValidPath_left {q : Path} {rest : Str} {seq : Bool}
    (h : isValidPath (q ++ '/' :: rest) seq = true) (hq : q ≠ []) :
    isValidPath q false = true ∧ q ≠ root := by
  obtain ⟨c, a, rfl⟩ := List.exists_cons_of_ne_nil hq
  obtain ⟨r, hr⟩ := isValidPath_head h
  obtain rfl := (List.cons.inj hr).1
  obtain ⟨ha, hlast⟩ := validFrom_left (validFrom_of_isValidPath h (by simp))
  cases a with
  | nil => simp at hlast
  | cons d a =>
      rw [List.getLast?_cons_cons] at hlast
      exact ⟨by simp [isValidPath, ha, hlast], by simp [root]⟩

lemma isValidPath_parentPath {q : Path} {seq : Bool} (h : isValidPath q seq = true) :
    isValidPath (parentPath q) false = true := by
  obtain ⟨r, rfl⟩ := isValidPath_head h
  obtain ⟨p, name, hq, hname, -⟩ := exists_cut (q := '/' :: r) (by simp)
  rw [hq] at h
  rw [hq, parentPath_cut hname]
  split_ifs with hp
  · rfl
  · exact (isValidPath_left h hp).1

/-! ## The parts of any string -/

/-- The rounds of the loop of `split_path`, until no `/` is left: each cuts the path at its last
`/` and puts what is before it in front. -/
inductive SplitRounds : Path → List Path → List Path → Prop
  | stop {path : Path} {acc : List Path} (noSlash : '/' ∉ path) : SplitRounds path acc acc
  | round {path : Path} {acc parts : List Path} (p : Path) (name : Str)
      (cut : path = p ++ '/' :: name) (noSlash : '/' ∉ name)
      (rounds : SplitRounds p (p :: acc) parts) : SplitRounds path acc parts

/-- A path that begins with a slash and has no empty component, the root included. -/
def WellFormed (path : Path) : Prop :=
  path = root ∨ ∃ components : List Str, components ≠ [] ∧
    (∀ c ∈ components, c ≠ [] ∧ '/' ∉ c) ∧ path = components.flatMap fun c => '/' :: c

/-- The length of the path is enough for all the rounds. -/
lemma SplitRounds.splitLoop {path : Path} {acc parts : List Path}
    (h : SplitRounds path acc parts) {n : ℕ} (hn : path.length ≤ n) :
    splitLoop n path acc = parts := by
  induction h generalizing n with
  | stop noSlash =>
      cases n with
      | zero => rfl
      | succ n => rw [Operations.splitLoop, dropWhile_of_noSlash noSlash]
  | @round _ acc parts p name cut noSlash rounds ih =>
      subst cut
      cases n with
      | zero => simp at hn
      | succ n =>
          rw [Operations.splitLoop, dropWhile_cut noSlash]
          simp only [List.reverse_reverse]
          refine ih ?_
          simp only [List.length_append, List.length_cons] at hn
          omega

/-- The loop makes a round for each slash of the path; the round that finds `k` slashes before
the last one puts in front what is before the slash that follows them. -/
lemma exists_splitRounds (n : ℕ) (path : Path) (acc : List Path) (hn : path.count '/' = n) :
    ∃ parts, SplitRounds path acc (parts ++ acc) ∧ parts.length = n ∧
      ∀ k < n, ∃ q rest, parts[k]? = some q ∧ path = q ++ '/' :: rest ∧ q.count '/' = k := by
  induction n generalizing path acc with
  | zero => exact ⟨[], .stop (List.count_eq_zero.mp hn), rfl, fun k hk => absurd hk (by omega)⟩
  | succ n ih =>
      have hslash : '/' ∈ path := by
        refine List.count_pos_iff.mp ?_
        omega
      obtain ⟨p, name, rfl, hname, -⟩ := exists_cut hslash
      have hp : p.count '/' = n := by
        rw [List.count_append, List.count_cons_self, List.count_eq_zero.mpr hname] at hn
        omega
      obtain ⟨parts, hrounds, hlen, hparts⟩ := ih p (p :: acc) hp
      refine ⟨parts ++ [p], .round p name rfl hname (by simpa using hrounds), by simp [hlen], ?_⟩
      intro k hk
      by_cases hkn : k < n
      · obtain ⟨q, rest, hq, hcut, hcount⟩ := hparts k hkn
        refine ⟨q, rest ++ '/' :: name, ?_, ?_, hcount⟩
        · rw [List.getElem?_append_left (by omega), hq]
        · rw [← List.cons_append, ← List.append_assoc, ← hcut]
      · obtain rfl : k = n := by omega
        exact ⟨p, name, by simp [← hlen], rfl, hp⟩

lemma splitPath_tail {path : Path} {parts : List Path} (h : SplitRounds path [] parts)
    (hn : parts.length = path.count '/') (hpos : path.count '/' ≠ 0) :
    splitPath path = some (parts.tail ++ [path]) := by
  rw [splitPath]
  split
  · omega
  · -- a single slash: the loop is not entered, and would have put nothing in front
    rename_i hone
    obtain ⟨p, rfl⟩ := List.length_eq_one_iff.mp (hn.trans hone)
    rfl
  · rw [h.splitLoop le_rfl]

/-- Each ancestor is what is before one of the slashes, but the first. -/
lemma exists_of_mem_splitPath {path a : Path} {l : List Path}
    (hl : splitPath path = some (l ++ [path])) (ha : a ∈ l) :
    a ≠ [] ∧ ∃ rest, path = a ++ '/' :: rest := by
  have hpos : path.count '/' ≠ 0 := by
    intro hzero
    simp [splitPath, hzero] at hl
  obtain ⟨parts, hrounds, hlen, hparts⟩ := exists_splitRounds _ path [] rfl
  rw [List.append_nil] at hrounds
  rw [splitPath_tail hrounds hlen hpos] at hl
  obtain rfl := List.append_cancel_right (Option.some.inj hl)
  obtain ⟨k, hk⟩ := List.mem_iff_getElem?.mp ha
  have hlt := (List.getElem?_eq_some_iff.mp hk).1
  rw [List.length_tail] at hlt
  obtain ⟨q, rest, hq, hcut, hcount⟩ := hparts (k + 1) (by omega)
  rw [List.getElem?_tail, hq] at hk
  obtain rfl := Option.some.inj hk
  refine ⟨?_, rest, hcut⟩
  rintro rfl
  simp at hcount

/-- The nodes below the root on the way to the path, from the shallowest to the parent. -/
structure Ancestors (path : Path) (l : List Path) : Prop where
  ladder : Ladder parentPath (root :: (l ++ [path]))
  below_root : root ∉ l

/-- The ancestors of a valid path are valid, also of one that is valid in the sequential modes. -/
lemma Ancestors.valid {path : Path} {l : List Path} {seq : Bool} (hanc : Ancestors path l)
    (h : isValidPath path seq = true) : ∀ a ∈ l, isValidPath a false = true := by
  obtain ⟨hladder, -⟩ := hanc
  induction l using List.reverseRecOn generalizing path seq with
  | nil => simp
  | append_singleton l b ih =>
      rw [← List.cons_append] at hladder
      obtain ⟨hl, -, hlast⟩ := List.isChain_append.mp hladder
      have hb : parentPath path = b := hlast b
        (by rw [← List.cons_append, List.getLast?_concat]; rfl) path (by simp)
      have hvalid : isValidPath b false = true := hb ▸ isValidPath_parentPath h
      refine List.forall_mem_append.mpr ⟨ih hvalid hl, by simpa using hvalid⟩

/-- `split_path` of a valid path: its ancestors and the path. -/
lemma splitPath_of_isValidPath {path : Path} {seq : Bool} (h : isValidPath path seq = true) :
    ∃ l, splitPath path = some (l ++ [path]) ∧ Ancestors path l := by
  obtain ⟨r, hr⟩ := isValidPath_head h
  obtain ⟨l, hl, hladder⟩ := splitPath_eq (q := path) (by rw [hr]; rfl)
  refine ⟨l, hl, hladder, fun hroot => ?_⟩
  obtain ⟨hne, rest, hcut⟩ := exists_of_mem_splitPath hl hroot
  rw [hcut] at h
  exact (isValidPath_left h hne).2 rfl

/-- The parts of a well-formed path have no doubled slash at their front. -/
lemma WellFormed.not_root_append {path : Path} (h : WellFormed path) (rest : Str) :
    path ≠ root ++ '/' :: rest := by
  rintro rfl
  rcases h with h | ⟨components, hne, hall, heq⟩
  · simp [root] at h
  · cases components with
    | nil => exact hne rfl
    | cons c components =>
        obtain ⟨hc, hslash⟩ := hall c List.mem_cons_self
        cases c with
        | nil => exact hc rfl
        | cons a c =>
            obtain rfl : '/' = a := by simpa [root] using (List.cons.inj (List.cons.inj heq).2).1
            exact hslash List.mem_cons_self

lemma WellFormed.head {path : Path} (h : WellFormed path) : path.head? = some '/' := by
  rcases h with rfl | ⟨components, hne, -, rfl⟩
  · rfl
  · cases components with
    | nil => exact absurd rfl hne
    | cons c components => rfl

/-- `split_path` throws when there is no slash.  Otherwise its loop ends, and there is a part for
each slash: the part `k` is what is before the slash that follows `k` others, and the last one is
the path.  The parts of a well-formed path are the ancestors of the path below the root, each the
parent of the next, and the path. -/
theorem splitPath_parts (path : Path) :
    (path.count '/' = 0 → splitPath path = none) ∧
    (path.count '/' ≠ 0 → ∃ parts l, SplitRounds path [] parts ∧ splitPath path = some l ∧
      l = parts.tail ++ [path] ∧ l.length = path.count '/' ∧
      (∀ k, 1 ≤ k → k < path.count '/' →
        ∃ q rest, l[k - 1]? = some q ∧ path = q ++ '/' :: rest ∧ q.count '/' = k) ∧
      (WellFormed path → Ladder parentPath (root :: l) ∧
        ∀ a, a ∈ l ↔ a = path ∨ a ≠ root ∧ Above parentPath path a)) := by
  refine ⟨fun h => by simp [splitPath, h], fun hpos => ?_⟩
  obtain ⟨parts, hrounds, hlen, hparts⟩ := exists_splitRounds _ path [] rfl
  rw [List.append_nil] at hrounds
  have hsplit := splitPath_tail hrounds hlen hpos
  have htail : ∀ k, 1 ≤ k → k < path.count '/' →
      ∃ q rest, (parts.tail ++ [path])[k - 1]? = some q ∧ path = q ++ '/' :: rest ∧
        q.count '/' = k := by
    intro k hk hkn
    obtain ⟨q, rest, hq, hcut, hcount⟩ := hparts k hkn
    refine ⟨q, rest, ?_, hcut, hcount⟩
    rw [List.getElem?_append_left (by rw [List.length_tail]; omega), List.getElem?_tail,
      Nat.sub_add_cancel hk, hq]
  refine ⟨parts, _, hrounds, hsplit, rfl, by simp [hlen]; omega, htail, fun hwf => ?_⟩
  obtain ⟨l, hl, hladder⟩ := splitPath_eq hwf.head
  rw [hsplit] at hl
  rw [Option.some.inj hl] at htail ⊢
  refine ⟨hladder, fun a => ?_⟩
  have hlast : (root :: (l ++ [path])).getLast? = some path :=
    List.getLast?_concat (l := root :: l)
  have hmem := Ladder.mem_iff (a := a) hladder parentPath_root hlast
  -- the root is a part of its own path only
  have hroot : root ∈ l ++ [path] → path = root := by
    intro hroot
    rcases List.mem_append.mp hroot with hroot | hroot
    · obtain ⟨-, rest, hcut⟩ := exists_of_mem_splitPath (hsplit.trans hl) hroot
      exact absurd hcut (hwf.not_root_append rest)
    · exact (List.mem_singleton.mp hroot).symm
  constructor
  · intro ha
    by_cases har : a = root
    · exact Or.inl (har.trans (hroot (har ▸ ha)).symm)
    · exact Or.inr ⟨har, hmem.mp (List.mem_cons_of_mem _ ha)⟩
  · rintro (rfl | ⟨har, habove⟩)
    · simp
    · exact (List.mem_cons.mp (hmem.mpr habove)).resolve_left har

end Operations

end ConfigMonitor
