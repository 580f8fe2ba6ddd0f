import Nascent.Lib.Lines
import Nascent.Tarfs.Model

/-!
# Paths

What `remove_d` of `src/sys/tarfs.c` makes of a path whose parts are names without dots and `..`. It keeps a
stack of parts: a name is put on the stack, and a `..` takes the last name off it (`resolve`). The loop of
`remove_d` works on characters, and its invariant is that what it has written so far is a `/` and the parts
of the stack with a `/` behind each (`removeDLoop_joined`). So a `..` is resolved lexically
(`removeD_resolves`).
-/

namespace Nascent.Tarfs

open Nascent.Bytes (Byte)
open Nascent.Lines

/-! ## Parts of paths -/

/-- The part `..`. -/
def dotdot : List Byte := [dot, dot]

/-- The name of a file or a directory, without dots. -/
structure IsName (c : List Byte) : Prop where
  /-- It is not empty. -/
  ne_nil : c ≠ []
  /-- It is one part. -/
  slash_notMem : slash ∉ c
  /-- It has no dot. -/
  dot_notMem : dot ∉ c
  /-- It is a string. -/
  zero_notMem : (0 : Byte) ∉ c

/-- A path of names and `..` parts. -/
structure Path where
  /-- Whether it starts with `/`. -/
  absolute : Bool
  /-- The parts. -/
  parts : List (List Byte)
  /-- Whether there is a `/` behind the last part. -/
  trailing : Bool
  /-- The parts are names or `..`. -/
  valid : ∀ c ∈ parts, c = dotdot ∨ IsName c

/-- The parts with a `/` between them. -/
def Path.body (path : Path) : List Byte :=
  if path.trailing then joined slash path.parts else (joined slash path.parts).dropLast

/-- The path ends behind a `/` or behind its last part. -/
theorem Path.body_cases (path : Path) :
    ((path.trailing = true ∨ path.parts = []) ∧ path.body = joined slash path.parts) ∨
    ∃ cs c, path.trailing = false ∧ path.parts = cs ++ [c] ∧ path.body = joined slash cs ++ c := by
  rw [body]
  rcases List.eq_nil_or_concat' path.parts with hnil | ⟨cs, c, hparts⟩
  · rw [hnil]
    exact .inl ⟨.inr rfl, ite_self _⟩
  · cases path.trailing with
    | true => exact .inl ⟨.inl rfl, rfl⟩
    | false =>
      refine .inr ⟨cs, c, rfl, hparts, ?_⟩
      rw [hparts, joined_concat, ← List.append_assoc]
      exact List.dropLast_concat

/-- A relative path does not start with `/`. -/
theorem Path.head?_body (path : Path) : path.body.head? ≠ some slash := by
  have hvalid := path.valid
  rw [body]
  cases hparts : path.parts with
  | nil => split <;> exact nofun
  | cons c cs =>
    have hfirst : ∃ ys, (if path.trailing then joined slash (c :: cs)
        else (joined slash (c :: cs)).dropLast) = c ++ ys := by
      rw [joined, List.flatMap_cons, List.append_assoc]
      split
      · exact ⟨_, rfl⟩
      · exact ⟨_, List.dropLast_append_of_ne_nil (by simp)⟩
    have hc : c ≠ [] ∧ slash ∉ c := by
      rcases hvalid c (by simp [hparts]) with rfl | hname
      · decide
      · exact ⟨hname.ne_nil, hname.slash_notMem⟩
    obtain ⟨ys, hys⟩ := hfirst
    obtain ⟨x, c, rfl⟩ := List.exists_cons_of_ne_nil hc.1
    rw [hys]
    rintro ⟨rfl⟩
    exact hc.2 (List.mem_cons_self ..)

/-- The path as it is written. -/
def Path.bytes (path : Path) : List Byte := if path.absolute then slash :: path.body else path.body

/-- The parts that are left once the `..` parts are resolved, behind those of a directory. -/
def resolve : List (List Byte) → List (List Byte) → List (List Byte)
  | stack, [] => stack
  | stack, c :: cs => if c = dotdot then resolve stack.dropLast cs else resolve (stack ++ [c]) cs

/-- No `..` climbs above the root, from a directory some levels below it. -/
def NoClimb : ℕ → List (List Byte) → Prop
  | _, [] => True
  | n, c :: cs => if c = dotdot then n ≠ 0 ∧ NoClimb (n - 1) cs else NoClimb (n + 1) cs

/-! ## `remove_d` -/

section removeD

variable {i : ℕ} {c w xs B b : List Byte} {cs stack : List (List Byte)}

/-- Characters that are not dots are copied. -/
theorem removeDLoop_append : ∀ {w : List Byte} {i : ℕ} {b : List Byte}, dot ∉ w →
    removeDLoop (w ++ xs) i 0 b = removeDLoop xs (i + w.length) 0 (b ++ w)
  | [], i, b, _ => by rw [List.nil_append, List.length_nil, Nat.add_zero, List.append_nil]
  | x :: w, i, b, hw => by
    obtain ⟨hx, hw⟩ := not_or.mp (List.mem_cons.not.mp hw)
    rw [List.cons_append, removeDLoop, if_neg (Ne.symm hx), if_neg (by omega), removeDLoop_append hw, List.length_cons,
      List.append_assoc, List.singleton_append, Nat.add_right_comm, Nat.add_assoc]

/-- The last part is taken off. -/
theorem lastSlash_eq (hw : slash ∉ w) : lastSlash ((b ++ [slash]) ++ w ++ [slash, dot]) = some (b ++ [slash]) := by
  have hlen : ¬ ((b ++ [slash]) ++ w ++ [slash, dot]).length < 3 := by
    simp
    omega
  have htake : ((b ++ [slash]) ++ w ++ [slash, dot]).take
      (((b ++ [slash]) ++ w ++ [slash, dot]).length - 2) = (b ++ [slash]) ++ w := by
    rw [List.length_append]
    exact List.take_left' rfl
  have hall : ∀ x ∈ w.reverse, decide (x ≠ slash) = true := fun x hx =>
    decide_eq_true fun heq => hw (heq ▸ List.mem_reverse.mp hx)
  have hdrop : ((b ++ [slash]) ++ w).reverse.dropWhile (fun x => decide (x ≠ slash)) =
      slash :: b.reverse := by
    rw [List.reverse_append, List.reverse_append, List.dropWhile_append_of_pos hall]
    simp
  rw [lastSlash, if_neg hlen, htake, hdrop]
  simp

/-- The loop at a `..`, behind a part `w`. -/
theorem removeDLoop_dots (hw : slash ∉ w) (hi : i ≠ 1) :
    removeDLoop (dotdot ++ xs) i 0 ((b ++ [slash]) ++ w ++ [slash]) =
      match xs with
      | [] => some (b ++ [slash])
      | [_] => some (b ++ [slash])
      | _ :: z :: zs => removeDLoop zs (i + 1 + 3) (if z = dot then 1 else 0) (b ++ [slash] ++ [z]) := by
  have hfirst : removeDLoop (dotdot ++ xs) i 0 ((b ++ [slash]) ++ w ++ [slash]) =
      removeDLoop (dot :: xs) (i + 1) 1 ((b ++ [slash]) ++ w ++ [slash, dot]) := by
    rw [dotdot, List.cons_append, removeDLoop, if_pos rfl, if_neg (by omega), List.append_assoc _ [slash]]
    rfl
  rewrite [hfirst, removeDLoop, if_pos rfl, if_pos ⟨rfl, by omega⟩, lastSlash_eq hw, Option.bind_some]
  rcases xs with - | ⟨x, - | ⟨z, zs⟩⟩ <;> rfl

/-- A `..` in the middle of a path. -/
theorem removeDLoop_dotdot (hw : slash ∉ w) (hi : i ≠ 1) :
    removeDLoop (dotdot ++ slash :: xs) i 0 ((b ++ [slash]) ++ w ++ [slash]) =
      removeDLoop xs (i + 3) 0 (b ++ [slash]) := by
  rw [removeDLoop_dots hw hi]
  cases xs with
  | nil => rw [removeDLoop]
  | cons z zs =>
    dsimp only
    rw [removeDLoop.eq_2]
    by_cases hz : z = dot
    · rw [if_pos hz, if_neg (by omega), Nat.add_right_comm]
    · rw [if_neg hz, if_neg (by omega), Nat.add_right_comm]

/-- A `..` at the end of a path. -/
theorem removeDLoop_dotdot_end (hw : slash ∉ w) (hi : i ≠ 1) :
    removeDLoop dotdot i 0 ((b ++ [slash]) ++ w ++ [slash]) = some (b ++ [slash]) := by
  rw [← List.append_nil dotdot, removeDLoop_dots hw hi]

/-- The working directory ends with a `/`. -/
theorem exists_concat_slash (stack : List (List Byte)) : ∃ b, slash :: joined slash stack = b ++ [slash] := by
  rcases List.eq_nil_or_concat' stack with rfl | ⟨st, w, rfl⟩
  · exact ⟨[], rfl⟩
  · exact ⟨slash :: (joined slash st ++ w), by rw [joined_concat]; simp⟩

/-- A directory below another. -/
theorem exists_concat_part (stack : List (List Byte)) (w : List Byte) :
    ∃ b, slash :: joined slash stack = b ++ [slash] ∧
      slash :: joined slash (stack ++ [w]) = (b ++ [slash]) ++ w ++ [slash] := by
  obtain ⟨b, hb⟩ := exists_concat_slash stack
  refine ⟨b, hb, ?_⟩
  rw [joined_concat, ← hb]
  simp

/-- The parts of a path with a `/` behind each of them are resolved, one after the other. -/
theorem removeDLoop_joined : ∀ {cs stack : List (List Byte)} {i : ℕ}, (∀ c ∈ cs, c = dotdot ∨ IsName c) →
    (∀ c ∈ stack, IsName c) → NoClimb stack.length cs → (slash :: joined slash stack).length ≤ i →
    ∃ j, i + cs.length ≤ j ∧ (slash :: joined slash (resolve stack cs)).length ≤ j ∧
      removeDLoop (joined slash cs ++ xs) i 0 (slash :: joined slash stack) =
        removeDLoop xs j 0 (slash :: joined slash (resolve stack cs))
  | [], stack, i, _, _, _, hi => ⟨i, le_rfl, hi, rfl⟩
  | c :: cs, stack, i, hcs, hstack, hclimb, hi => by
    obtain ⟨hc, hcs⟩ := List.forall_mem_cons.mp hcs
    have hsplit : joined slash (c :: cs) ++ xs = c ++ slash :: (joined slash cs ++ xs) := by simp [joined]
    rw [hsplit]
    by_cases hdots : c = dotdot
    · rw [NoClimb, if_pos hdots] at hclimb
      rw [resolve, if_pos hdots]
      -- There is a part to take off.
      obtain ⟨st, w, rfl⟩ : ∃ st w, stack = st ++ [w] :=
        (List.eq_nil_or_concat' stack).resolve_left fun hnil => hclimb.1 (by rw [hnil, List.length_nil])
      have hw := hstack w (by simp)
      obtain ⟨b, hb, hbuff⟩ := exists_concat_part st w
      have hlen := List.length_pos_of_ne_nil hw.ne_nil
      rw [hbuff, List.length_append, List.length_append, List.length_append] at hi
      simp only [List.length_singleton] at hi
      rw [List.dropLast_concat, hbuff, hdots, removeDLoop_dotdot hw.slash_notMem (by omega), ← hb]
      have hstack' : ∀ c ∈ st, IsName c := fun c hc => hstack c (by simp [hc])
      rw [List.length_append, List.length_singleton] at hclimb
      have hi' : (slash :: joined slash st).length ≤ i + 3 := by
        rw [hb, List.length_append, List.length_singleton]
        omega
      obtain ⟨j, hj, hjlen, hloop⟩ := removeDLoop_joined hcs hstack' hclimb.2 hi'
      exact ⟨j, by rw [List.length_cons]; omega, hjlen, hloop⟩
    · rw [NoClimb, if_neg hdots] at hclimb
      rw [resolve, if_neg hdots]
      have hname := hc.resolve_left hdots
      have hdot : dot ∉ c ++ [slash] := fun hmem =>
        (List.mem_append.mp hmem).elim hname.dot_notMem (by decide)
      have hbuff : slash :: joined slash stack ++ (c ++ [slash]) = slash :: joined slash (stack ++ [c]) := by
        rw [joined_concat, List.cons_append]
      have happend : c ++ slash :: (joined slash cs ++ xs) = (c ++ [slash]) ++ (joined slash cs ++ xs) := by
        simp
      have hstack' : ∀ c' ∈ stack ++ [c], IsName c' := by
        intro c' hc'
        rcases List.mem_append.mp hc' with hc' | hc'
        · exact hstack c' hc'
        · exact List.mem_singleton.mp hc' ▸ hname
      have hclimb' : NoClimb (stack ++ [c]).length cs := by
        rw [List.length_append, List.length_singleton]
        exact hclimb
      have hi' : (slash :: joined slash (stack ++ [c])).length ≤ i + (c ++ [slash]).length := by
        rw [← hbuff, List.length_append]
        omega
      obtain ⟨j, hj, hjlen, hloop⟩ := removeDLoop_joined hcs hstack' hclimb' hi'
      rw [happend, removeDLoop_append hdot, hbuff]
      refine ⟨j, ?_, hjlen, hloop⟩
      rw [List.length_append, List.length_singleton] at hj
      rw [List.length_cons]
      omega

/-- The parts that are left are names. -/
theorem isName_of_mem_resolve : ∀ {cs stack : List (List Byte)}, (∀ c ∈ cs, c = dotdot ∨ IsName c) →
    (∀ c ∈ stack, IsName c) → ∀ c ∈ resolve stack cs, IsName c
  | [], stack, _, hstack, c, hc => hstack c hc
  | c :: cs, stack, hcs, hstack, c', hc' => by
    obtain ⟨hc, hcs⟩ := List.forall_mem_cons.mp hcs
    rw [resolve] at hc'
    split at hc'
    · exact isName_of_mem_resolve hcs (fun c hc => hstack c (List.mem_of_mem_dropLast hc)) c' hc'
    · rename_i hdots
      refine isName_of_mem_resolve hcs (fun c'' hc'' => ?_) c' hc'
      rcases List.mem_append.mp hc'' with hc'' | hc''
      · exact hstack c'' hc''
      · exact List.mem_singleton.mp hc'' ▸ hc.resolve_left hdots

/-- The parts of a path with one more of them. -/
theorem resolve_concat : ∀ {cs stack : List (List Byte)}, resolve stack (cs ++ [c]) =
    if c = dotdot then (resolve stack cs).dropLast else resolve stack cs ++ [c]
  | [], stack => rfl
  | c' :: cs, stack => by
    rw [List.cons_append, resolve, resolve_concat, resolve_concat, resolve]
    split <;> rfl

/-- No part of a path with one more of them climbs above the root. -/
theorem noClimb_concat : ∀ {cs stack : List (List Byte)}, NoClimb stack.length (cs ++ [c]) →
    NoClimb stack.length cs ∧ (c = dotdot → resolve stack cs ≠ [])
  | [], stack, h => by
    refine ⟨trivial, fun hc hnil => ?_⟩
    rw [List.nil_append, NoClimb, if_pos hc] at h
    exact h.1 (List.length_eq_zero_iff.mpr hnil)
  | c' :: cs, stack, h => by
    rw [List.cons_append, NoClimb] at h
    rw [NoClimb, resolve]
    by_cases hc' : c' = dotdot
    · rw [if_pos hc', ← List.length_dropLast] at h
      rw [if_pos hc', if_pos hc', ← List.length_dropLast]
      obtain ⟨hclimb, hlast⟩ := noClimb_concat h.2
      exact ⟨⟨h.1, hclimb⟩, hlast⟩
    · have hlen : stack.length + 1 = (stack ++ [c']).length := by
        rw [List.length_append, List.length_singleton]
      rw [if_neg hc', hlen] at h
      rw [if_neg hc', if_neg hc', hlen]
      exact noClimb_concat h

/-- What is left of a path is not longer. -/
theorem length_joined_resolve_le : ∀ cs stack : List (List Byte),
    (joined slash (resolve stack cs)).length ≤ (joined slash stack).length + (joined slash cs).length
  | [], stack => Nat.le_add_right _ _
  | c :: cs, stack => by
    have hcons : (joined slash (c :: cs)).length = c.length + 1 + (joined slash cs).length := by
      simp only [joined, List.flatMap_cons, List.length_append, List.length_singleton]
    rw [resolve, hcons]
    split
    · have hle : (joined slash stack.dropLast).length ≤ (joined slash stack).length := by
        rcases List.eq_nil_or_concat' stack with rfl | ⟨st, w, rfl⟩
        · exact le_rfl
        · rw [List.dropLast_concat, joined_concat, List.length_append]
          exact Nat.le_add_right _ _
      have hrest := length_joined_resolve_le cs stack.dropLast
      omega
    · have hrest := length_joined_resolve_le cs (stack ++ [c])
      rw [joined_concat, List.length_append, List.length_append, List.length_singleton] at hrest
      omega

/-- The result of `remove_d` ends with a `/`: the path does, or its last part is `..`, or there is none. -/
def Path.Open (path : Path) : Prop :=
  path.trailing = true ∨ path.parts = [] ∨ path.parts.getLast? = some dotdot

instance (path : Path) : Decidable path.Open := inferInstanceAs (Decidable (_ ∨ _ ∨ _))

/-- A path that ends behind a name is not open. -/
theorem Path.not_open {path : Path} (htrail : path.trailing = false) (hparts : path.parts = cs ++ [c])
    (hdots : c ≠ dotdot) : ¬ path.Open := by
  rintro (htrue | hnil | hdd)
  · exact absurd (htrail.symm.trans htrue) (by decide)
  · rw [hnil] at hparts
    exact List.append_ne_nil_of_right_ne_nil _ (List.cons_ne_nil _ _) hparts.symm
  · rw [hparts, List.getLast?_concat] at hdd
    exact hdots (Option.some.inj hdd)

/-- Otherwise the path ends behind a name. -/
theorem Path.of_not_open (path : Path) (h : ¬ path.Open) : ∃ cs c, path.parts = cs ++ [c] ∧ c ≠ dotdot ∧
    path.body = joined slash cs ++ c := by
  rcases path.body_cases with ⟨hopen, -⟩ | ⟨cs, c, -, hparts, hbody⟩
  · exact absurd (hopen.imp_right .inl) h
  · refine ⟨cs, c, hparts, fun hdots => h (.inr (.inr ?_)), hbody⟩
    rw [hparts, List.getLast?_concat, hdots]

/-- `remove_d` of a path behind a directory. -/
theorem removeD_body (path : Path) (hstack : ∀ c ∈ stack, IsName c)
    (hclimb : NoClimb stack.length path.parts) :
    removeD (slash :: joined slash stack ++ path.body) = some (slash ::
      if path.Open then joined slash (resolve stack path.parts)
      else (joined slash (resolve stack path.parts)).dropLast) := by
  have hdot : dot ∉ slash :: joined slash stack := by
    intro hmem
    rcases List.mem_cons.mp hmem with hmem | hmem
    · exact absurd hmem (by decide)
    · obtain ⟨c, hc, hmem⟩ := List.mem_flatMap.mp hmem
      exact (List.mem_append.mp hmem).elim (hstack c hc).dot_notMem (by decide)
  rw [removeD, removeDLoop_append hdot, List.nil_append, Nat.zero_add]
  rcases path.body_cases with ⟨hopen, hbody⟩ | ⟨cs, c, htrail, hparts, hbody⟩
  · have hopen : path.Open := hopen.imp_right .inl
    obtain ⟨j, -, -, hloop⟩ := removeDLoop_joined path.valid hstack hclimb le_rfl
    rw [hbody, ← List.append_nil (joined slash path.parts), hloop, removeDLoop, if_pos hopen]
  · have hvalid := path.valid
    have hlast? : path.parts.getLast? = some c := by rw [hparts, List.getLast?_concat]
    rw [hparts] at hvalid hclimb
    obtain ⟨hclimb, hlast⟩ := noClimb_concat hclimb
    have hvalid' : ∀ c ∈ cs, c = dotdot ∨ IsName c := fun c hc => hvalid c (List.mem_append_left _ hc)
    obtain ⟨j, -, hj, hloop⟩ := removeDLoop_joined hvalid' hstack hclimb le_rfl
    rw [hbody, hloop, hparts, resolve_concat]
    by_cases hdots : c = dotdot
    · -- The last part takes off the part before it.
      obtain ⟨st, w, hst⟩ := (List.eq_nil_or_concat' _).resolve_left (hlast hdots)
      have hw : IsName w := isName_of_mem_resolve hvalid' hstack w (by rw [hst]; simp)
      obtain ⟨b, hb, hbuff⟩ := exists_concat_part st w
      have hpos := List.length_pos_of_ne_nil hw.ne_nil
      have hopen : path.Open := .inr (.inr (by rw [hlast?, hdots]))
      rw [hst, hbuff, List.length_append, List.length_append, List.length_append] at hj
      simp only [List.length_singleton] at hj
      rw [if_pos hopen, if_pos hdots, hst, List.dropLast_concat, hbuff, hdots,
        removeDLoop_dotdot_end hw.slash_notMem (by omega), ← hb]
    · have hname := (hvalid c (by simp)).resolve_left hdots
      rw [if_neg (Path.not_open htrail hparts hdots), if_neg hdots, ← List.append_nil c, removeDLoop_append hname.dot_notMem,
        removeDLoop, joined_concat, List.append_nil, ← List.append_assoc, List.dropLast_concat,
        List.cons_append]

end removeD

/-! ## The resolved path -/

/-- Whether a path with a `/` at its start is open shows at its end. -/
theorem Path.open_iff (path : Path) (habs : path.absolute = true) :
    path.Open ↔ path.bytes.getLast? = some slash ∨ dotdot <:+ path.bytes := by
  rw [bytes, if_pos habs]
  rcases path.body_cases with ⟨hopen, hbody⟩ | ⟨cs, c, htrail, hparts, hbody⟩
  · refine iff_of_true (hopen.imp_right .inl) (.inl ?_)
    obtain ⟨b, hb⟩ := exists_concat_slash path.parts
    rw [hbody, hb, List.getLast?_concat]
  · have hc := path.valid c (by rw [hparts]; simp)
    have hlast? : path.parts.getLast? = some c := by rw [hparts, List.getLast?_concat]
    have hsuffix : c <:+ slash :: path.body := by
      rw [hbody, ← List.cons_append]
      exact List.suffix_append ..
    by_cases hdots : c = dotdot
    · exact iff_of_true (.inr (.inr (by rw [hlast?, hdots]))) (.inr (hdots ▸ hsuffix))
    · have hname := hc.resolve_left hdots
      obtain ⟨c', x, rfl⟩ := (List.eq_nil_or_concat' c).resolve_left hname.ne_nil
      obtain ⟨b, hb⟩ : ∃ b, slash :: path.body = b ++ [x] :=
        ⟨slash :: (joined slash cs ++ c'), by rw [hbody, List.cons_append, List.append_assoc]⟩
      have hx : x ∈ c' ++ [x] := by simp
      refine iff_of_false (Path.not_open htrail hparts hdots) ?_
      rintro (hslash | ⟨t, ht⟩)
      · rw [hb, List.getLast?_concat] at hslash
        exact hname.slash_notMem (Option.some.inj hslash ▸ hx)
      · -- The last character of `..` is a dot.
        have hdot : (t ++ dotdot).getLast? = some dot := by rw [List.getLast?_append]; rfl
        rw [ht, hb, List.getLast?_concat] at hdot
        exact hname.dot_notMem (Option.some.inj hdot ▸ hx)

/-- `remove_d` of a path from the root: the names that are left, with a `/` before each, and one behind the
last of them where the path ends with `/` or with `..`. This is what `path_sanitize` gives. -/
theorem removeD_resolves (path : Path) (cwd : List Byte) (habs : path.absolute = true)
    (hlen : path.bytes.length < pathSize) (hclimb : NoClimb 0 path.parts) :
    pathSanitize cwd path.bytes = removeD path.bytes ∧
    removeD path.bytes = some (slash :: ([slash].intercalate (resolve [] path.parts) ++
      if resolve [] path.parts ≠ [] ∧ (path.bytes.getLast? = some slash ∨ dotdot <:+ path.bytes)
      then [slash] else [])) := by
  have hbytes : path.bytes = slash :: joined slash [] ++ path.body := by
    rw [Path.bytes, if_pos habs]
    rfl
  refine ⟨?_, ?_⟩
  · rw [pathSanitize, hbytes, List.cons_append, List.head?_cons, if_pos rfl, Option.bind_some,
      ← List.cons_append, ← hbytes, if_pos hlen]
  · have hiff := path.open_iff habs
    have hout := removeD_body path (List.forall_mem_nil _) hclimb
    rw [← hbytes] at hout
    rw [hout]
    by_cases hnil : resolve [] path.parts = []
    · have hnot : ¬ (([] : List (List Byte)) ≠ [] ∧
          (path.bytes.getLast? = some slash ∨ dotdot <:+ path.bytes)) := fun h => h.1 rfl
      rw [hnil, if_neg hnot]
      split <;> rfl
    · rw [joined_eq_intercalate hnil]
      by_cases hopen : path.Open
      · rw [if_pos hopen, if_pos ⟨hnil, hiff.mp hopen⟩]
      · rw [if_neg hopen, if_neg fun h => hopen (hiff.mpr h.2), List.dropLast_concat, List.append_nil]

/-- The path `/a/b/../../c/..`. -/
def samplePath : Path where
  absolute := true
  parts := [[97], [98], dotdot, dotdot, [99], dotdot]
  trailing := false
  valid := by
    intro c hc
    simp only [List.mem_cons, List.not_mem_nil, or_false] at hc
    rcases hc with rfl | rfl | rfl | rfl | rfl | rfl
    · exact .inr ⟨by decide, by decide, by decide, by decide⟩
    · exact .inr ⟨by decide, by decide, by decide, by decide⟩
    · exact .inl rfl
    · exact .inl rfl
    · exact .inr ⟨by decide, by decide, by decide, by decide⟩
    · exact .inl rfl

theorem removeD_resolves_sample :
    pathSanitize [slash] samplePath.bytes = removeD samplePath.bytes ∧
      removeD samplePath.bytes = some [slash] :=
  removeD_resolves samplePath [slash] rfl (by decide) (by simp [NoClimb, samplePath, dotdot, dot])

end Nascent.Tarfs
