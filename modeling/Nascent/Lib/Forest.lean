import Mathlib.Data.List.Basic
import Mathlib.Data.List.Infix
import Mathlib.Data.List.TakeWhile

/-!
# Forests in pre-order

A forest of files and directories, written down in pre-order: each directory stands before what is in it.
The name of an entry is its path, with a delimiter `d` behind each directory, so an entry is in a
directory where its name goes on from the name of the directory. In a list in pre-order the entries below
a directory stand together behind it (`Named.split`).

A `scan` of such a list looks for the entries below a directory, and passes over those below the last
entry that it has found. It finds what it would find among the children alone (`Named.scan_entries`): some
of them, in order. It finds all of them where no child's name goes on from the name of the child before it
(`scan_eq_self_iff`).
-/

namespace Nascent.Forests

variable {α ε : Type*} {d : α} {s t u p n c : List α}

/-- A list goes on from another. -/
def ProperPrefix (s t : List α) : Prop := s <+: t ∧ s.length < t.length

instance [DecidableEq α] : Decidable (ProperPrefix s t) := inferInstanceAs (Decidable (_ ∧ _))

theorem ProperPrefix.trans_prefix (h : ProperPrefix s t) (h' : t <+: u) : ProperPrefix s u :=
  ⟨h.1.trans h', h.2.trans_le h'.length_le⟩

theorem properPrefix_append (hne : t ≠ []) : ProperPrefix s (s ++ t) := by
  refine ⟨List.prefix_append s t, ?_⟩
  have := List.length_pos_of_ne_nil hne
  rw [List.length_append]
  omega

theorem ProperPrefix.ne (h : ProperPrefix s t) : s ≠ t := fun heq => h.2.ne (congrArg List.length heq)

/-- A part of a path. -/
def IsComponent (d : α) (c : List α) : Prop := c ≠ [] ∧ d ∉ c

/-- The part of a path behind the name of a directory. -/
def component [DecidableEq α] (d : α) (p n : List α) : List α :=
  (n.drop p.length).takeWhile fun x => decide (x ≠ d)

/-- The name of a child of a directory. -/
def IsChild [DecidableEq α] (d : α) (p n : List α) : Prop :=
  component d p n ≠ [] ∧ (n = p ++ component d p n ∨ n = p ++ component d p n ++ [d])

instance [DecidableEq α] : Decidable (IsChild d p n) := inferInstanceAs (Decidable (_ ∧ _))

/-- The name of a child goes on from the name of the directory. -/
theorem IsChild.properPrefix [DecidableEq α] (h : IsChild d p n) : ProperPrefix p n := by
  obtain ⟨hne, hn | hn⟩ := h
  · rw [hn]
    exact properPrefix_append hne
  · rw [hn, List.append_assoc]
    exact properPrefix_append (List.append_ne_nil_of_left_ne_nil hne _)

/-- The delimiter ends a part. -/
theorem component_append [DecidableEq α] (h : d ∉ c) (t : List α) :
    component d p (p ++ c ++ d :: t) = c := by
  have hall : ∀ x ∈ c, decide (x ≠ d) = true := fun x hx => decide_eq_true fun heq => h (heq ▸ hx)
  rw [component, List.append_assoc, List.drop_left, List.takeWhile_append_of_pos hall,
    List.takeWhile_cons_of_neg (by simp), List.append_nil]

theorem component_self [DecidableEq α] (h : d ∉ c) : component d p (p ++ c) = c := by
  have hall : ∀ x ∈ c, decide (x ≠ d) = true := fun x hx => decide_eq_true fun heq => h (heq ▸ hx)
  rw [component, List.drop_left, List.takeWhile_eq_self_iff.mpr hall]

/-- Two paths that go on with the same part. -/
theorem component_inj [DecidableEq α] {c' t' : List α} (h : d ∉ c) (h' : d ∉ c')
    (heq : p ++ c ++ d :: t = p ++ c' ++ d :: t') : c = c' := by
  rw [← component_append (p := p) h t, heq, component_append h']

/-! ## Forests -/

/-- Files and directories, one behind the other. -/
inductive Forest (ε : Type*)
  /-- Nothing. -/
  | nil
  /-- A file, and others behind it. -/
  | file (e : ε) (rest : Forest ε)
  /-- A directory with what is in it, and others behind it. -/
  | dir (e : ε) (sub rest : Forest ε)

namespace Forest

/-- The entries in pre-order. -/
def entries : Forest ε → List ε
  | nil => []
  | file e rest => e :: rest.entries
  | dir e sub rest => e :: (sub.entries ++ rest.entries)

/-- The entries that are not in a directory of the forest. -/
def roots : Forest ε → List ε
  | nil => []
  | file e rest => e :: rest.roots
  | dir e _ rest => e :: rest.roots

end Forest

open Forest

variable {name : ε → List α} {f g : Forest ε} {e x : ε} {es : List ε} {D L : List α}

/-- The names are the paths below a directory `p`. -/
def Named (name : ε → List α) (d : α) : List α → Forest ε → Prop
  | _, nil => True
  | p, file e rest => (∃ c, IsComponent d c ∧ name e = p ++ c) ∧ Named name d p rest
  | p, dir e sub rest => (∃ c, IsComponent d c ∧ name e = p ++ c ++ [d]) ∧ Named name d (name e) sub ∧
      Named name d p rest

theorem roots_subset : ∀ {f : Forest ε}, f.roots ⊆ f.entries
  | nil => List.Subset.refl _
  | file e _ => List.cons_subset_cons e roots_subset
  | dir e _ _ => List.cons_subset_cons e (List.Subset.trans roots_subset (List.subset_append_right _ _))

namespace Named

/-- The name of an entry goes on from the directory. -/
theorem properPrefix : ∀ {p : List α} {f : Forest ε}, Named name d p f → ∀ x ∈ f.entries,
    ProperPrefix p (name x)
  | p, file e rest, h, x, hx => by
    obtain ⟨⟨c, hc, he⟩, hrest⟩ := h
    rcases List.mem_cons.mp hx with rfl | hx
    · rw [he]
      exact properPrefix_append hc.1
    · exact hrest.properPrefix x hx
  | p, dir e sub rest, h, x, hx => by
    obtain ⟨⟨c, hc, he⟩, hsub, hrest⟩ := h
    have hself : ProperPrefix p (name e) := by
      rw [he, List.append_assoc]
      exact properPrefix_append (List.append_ne_nil_of_left_ne_nil hc.1 _)
    rcases List.mem_cons.mp hx with rfl | hx
    · exact hself
    · rcases List.mem_append.mp hx with hx | hx
      · exact hself.trans_prefix (hsub.properPrefix x hx).1
      · exact hrest.properPrefix x hx

/-- An entry below a directory of the forest has the directory among the roots. -/
theorem exists_root [DecidableEq α] : ∀ {f : Forest ε}, Named name d p f → ∀ x ∈ f.entries,
    ∀ {c t : List α}, d ∉ c → name x = p ++ c ++ d :: t → ∃ r ∈ f.roots, name r = p ++ c ++ [d]
  | file e rest, h, x, hx, c, t, hc, hname => by
    obtain ⟨⟨c', hc', he⟩, hrest⟩ := h
    rcases List.mem_cons.mp hx with rfl | hx
    · rw [he, List.append_assoc, List.append_cancel_left_eq] at hname
      exact absurd (by rw [hname]; simp) hc'.2
    · obtain ⟨r, hr, hroot⟩ := hrest.exists_root x hx hc hname
      exact ⟨r, List.mem_cons_of_mem _ hr, hroot⟩
  | dir e sub rest, h, x, hx, c, t, hc, hname => by
    obtain ⟨⟨c', hc', he⟩, hsub, hrest⟩ := h
    -- The first part of the path is that of the directory.
    have hself : ∀ t', name x = p ++ c' ++ d :: t' → ∃ r ∈ (dir e sub rest).roots, name r = p ++ c ++ [d] := by
      intro t' hx'
      obtain rfl : c = c' := component_inj hc hc'.2 (hname.symm.trans hx')
      exact ⟨e, List.mem_cons_self .., he⟩
    rcases List.mem_cons.mp hx with rfl | hx
    · exact hself [] he
    · rcases List.mem_append.mp hx with hx | hx
      · obtain ⟨t', ht'⟩ := (hsub.properPrefix x hx).1
        refine hself t' ?_
        rw [← ht', he, List.append_assoc, List.singleton_append]
      · obtain ⟨r, hr, hroot⟩ := hrest.exists_root x hx hc hname
        exact ⟨r, List.mem_cons_of_mem _ hr, hroot⟩

/-- The name of an entry that ends with the delimiter has the delimiter behind a first part. -/
theorem exists_component {f : Forest ε} (h : Named name d p f) (hx : x ∈ f.entries)
    (hlast : (name x).getLast? = some d) : ∃ c t, d ∉ c ∧ name x = p ++ c ++ d :: t := by
  obtain ⟨t, ht⟩ := (h.properPrefix x hx).1
  have hlen := (h.properPrefix x hx).2
  have htne : t ≠ [] := by
    rintro rfl
    rw [← ht, List.append_nil] at hlen
    omega
  have hmem : d ∈ t := by
    rw [← ht, List.getLast?_append_of_ne_nil _ htne] at hlast
    exact List.mem_of_getLast? hlast
  obtain ⟨c, t', rfl, hc⟩ := List.eq_append_cons_of_mem hmem
  exact ⟨c, t', hc, by rw [← ht, List.append_assoc]⟩

/-- No entry goes on from a directory of another part of the forest. -/
theorem not_prefix_of_disjoint [DecidableEq α] {y : ε} (hf : Named name d p f) (hg : Named name d p g)
    (hdisj : ∀ r ∈ f.entries, ∀ r' ∈ g.entries, name r ≠ name r') (hx : x ∈ f.entries)
    (hlast : (name x).getLast? = some d) (hy : y ∈ g.entries) : ¬ name x <+: name y := by
  rintro ⟨t', ht'⟩
  obtain ⟨c, t, hc, hname⟩ := hf.exists_component hx hlast
  obtain ⟨r, hr, hroot⟩ := hf.exists_root x hx hc hname
  obtain ⟨r', hr', hroot'⟩ := hg.exists_root y hy (t := t ++ t') hc
    (by rw [← ht', hname, List.append_assoc, List.cons_append])
  exact hdisj r (roots_subset hr) r' (roots_subset hr') (hroot.trans hroot'.symm)

/-- The entries below a directory stand together behind it, and nothing else goes on from it. -/
theorem split [DecidableEq α] : ∀ {p : List α} {f : Forest ε}, Named name d p f →
    (f.entries.map name).Nodup → x ∈ f.entries → (name x).getLast? = some d →
    ∃ pre sub post, f.entries = pre ++ x :: (sub.entries ++ post) ∧ Named name d (name x) sub ∧
      ∀ y ∈ pre ++ post, ¬ name x <+: name y
  | p, file e rest, h, hnodup, hx, hlast => by
    obtain ⟨he, hrest⟩ := h
    rw [entries, List.map_cons, List.nodup_cons] at hnodup
    have hself : Named name d p (file e nil) := ⟨he, trivial⟩
    have hdisj : ∀ r ∈ rest.entries, ∀ r' ∈ (file e nil).entries, name r ≠ name r' := by
      intro r hr r' hr' heq
      rw [List.mem_singleton.mp hr'] at heq
      exact hnodup.1 (heq ▸ List.mem_map_of_mem hr)
    rcases List.mem_cons.mp hx with rfl | hx
    · -- The name of a file does not end with the delimiter.
      obtain ⟨c, t, -, hname⟩ := hself.exists_component (List.mem_cons_self ..) hlast
      obtain ⟨c', hc', he⟩ := he
      rw [he, List.append_assoc, List.append_cancel_left_eq] at hname
      exact absurd (by rw [hname]; simp) hc'.2
    · obtain ⟨pre, sub, post, hsplit, hsub, hnot⟩ := hrest.split hnodup.2 hx hlast
      refine ⟨e :: pre, sub, post, by rw [entries, hsplit, List.cons_append], hsub, ?_⟩
      refine List.forall_mem_cons.mpr ⟨?_, hnot⟩
      exact hrest.not_prefix_of_disjoint hself hdisj hx hlast (List.mem_cons_self ..)
  | p, dir e sub rest, h, hnodup, hx, hlast => by
    obtain ⟨he, hsub, hrest⟩ := h
    have hself : Named name d p (dir e sub nil) := ⟨he, hsub, trivial⟩
    have hparts : (dir e sub rest).entries = (dir e sub nil).entries ++ rest.entries := by
      rw [entries, entries, entries, List.append_nil, List.cons_append]
    rw [hparts, List.map_append, List.nodup_append] at hnodup
    obtain ⟨hnodup₁, hnodup₂, hne⟩ := hnodup
    have hdisj : ∀ r ∈ (dir e sub nil).entries, ∀ r' ∈ rest.entries, name r ≠ name r' :=
      fun r hr r' hr' => hne _ (List.mem_map_of_mem hr) _ (List.mem_map_of_mem hr')
    rw [hparts] at hx ⊢
    rcases List.mem_append.mp hx with hx | hx
    · have hother : ∀ y ∈ rest.entries, ¬ name x <+: name y := fun y hy =>
        hself.not_prefix_of_disjoint hrest hdisj hx hlast hy
      rw [entries, entries, List.append_nil] at hx hnodup₁ ⊢
      rcases List.mem_cons.mp hx with rfl | hx
      · exact ⟨[], sub, rest.entries, by simp, hsub, hother⟩
      · -- The directory is further down.
        rw [List.map_cons, List.nodup_cons] at hnodup₁
        obtain ⟨pre, sub', post, hsplit, hsub', hnot⟩ := hsub.split hnodup₁.2 hx hlast
        refine ⟨e :: pre, sub', post ++ rest.entries, by rw [hsplit]; simp, hsub', ?_⟩
        have hlen := (hsub.properPrefix x hx).2
        intro y hy
        rw [List.cons_append, ← List.append_assoc, List.mem_cons, List.mem_append] at hy
        rcases hy with rfl | hy | hy
        · exact fun hpre => absurd hpre.length_le (Nat.not_le.mpr hlen)
        · exact hnot y hy
        · exact hother y hy
    · obtain ⟨pre, sub', post, hsplit, hsub', hnot⟩ := hrest.split hnodup₂ hx hlast
      refine ⟨(dir e sub nil).entries ++ pre, sub', post, by rw [hsplit, List.append_assoc], hsub', ?_⟩
      intro y hy
      rw [List.append_assoc, List.mem_append] at hy
      rcases hy with hy | hy
      · exact hrest.not_prefix_of_disjoint hself (fun r hr r' hr' => (hdisj r' hr' r hr).symm) hx hlast hy
      · exact hnot y hy

/-- The children among the entries below a directory are the roots. -/
theorem filter_isChild [DecidableEq α] : ∀ {f : Forest ε}, Named name d p f →
    f.entries.filter (fun x => decide (IsChild d p (name x))) = f.roots
  | nil, _ => rfl
  | file e rest, h => by
    obtain ⟨⟨c, hc, he⟩, hrest⟩ := h
    have hchild : IsChild d p (name e) := by
      rw [he, IsChild, component_self hc.2]
      exact ⟨hc.1, .inl rfl⟩
    rw [entries, List.filter_cons, if_pos (decide_eq_true hchild), hrest.filter_isChild, roots]
  | dir e sub rest, h => by
    obtain ⟨⟨c, hc, he⟩, hsub, hrest⟩ := h
    have hchild : IsChild d p (name e) := by
      rw [he, IsChild, component_append hc.2]
      exact ⟨hc.1, .inr rfl⟩
    -- What is further down has a longer name.
    have hdeep : sub.entries.filter (fun x => decide (IsChild d p (name x))) = [] := by
      refine List.filter_eq_nil_iff.mpr fun x hx hx' => ?_
      obtain ⟨-, hname⟩ := of_decide_eq_true hx'
      obtain ⟨⟨t, ht⟩, hlen⟩ := hsub.properPrefix x hx
      have hcomp : component d p (name x) = c := by
        rw [← ht, he, List.append_assoc _ [d], List.singleton_append, component_append hc.2]
      rw [hcomp] at hname
      rw [he] at hlen
      rcases hname with hname | hname
      · rw [hname, List.length_append] at hlen
        omega
      · rw [hname] at hlen
        omega
    rw [entries, List.filter_cons, if_pos (decide_eq_true hchild), List.filter_append, hdeep,
      hrest.filter_isChild, List.nil_append, roots]

/-- A list with the same entries in another form is a forest too. -/
theorem lift {ι : Type*} {g : ι → ε} : ∀ {p : List α} {f : Forest ε} {xs : List ι}, Named name d p f →
    xs.map g = f.entries → ∃ f' : Forest ι, f'.entries = xs ∧ Named (fun x => name (g x)) d p f'
  | p, nil, xs, _, hxs => ⟨nil, (List.map_eq_nil_iff.mp hxs).symm, trivial⟩
  | p, file e rest, xs, h, hxs => by
    obtain ⟨x, ys, rfl, rfl, hys⟩ := List.map_eq_cons_iff.mp hxs
    obtain ⟨rest', rfl, hrest'⟩ := h.2.lift hys
    exact ⟨file x rest', rfl, h.1, hrest'⟩
  | p, dir e sub rest, xs, h, hxs => by
    obtain ⟨x, ys, rfl, rfl, hys⟩ := List.map_eq_cons_iff.mp hxs
    obtain ⟨zs, ws, rfl, hzs, hws⟩ := List.map_eq_append_iff.mp hys
    obtain ⟨sub', rfl, hsub'⟩ := h.2.1.lift hzs
    obtain ⟨rest', rfl, hrest'⟩ := h.2.2.lift hws
    exact ⟨dir x sub' rest', rfl, h.1, hsub', hrest'⟩

end Named

/-! ## Scans -/

section scan

variable [DecidableEq α]

/-- A name is below `D`, and not below the last one, unless that is `D` itself. -/
def Matches (D L n : List α) : Prop := ProperPrefix D n ∧ L ≠ n ∧ (D = L ∨ ¬ ProperPrefix L n)

instance : Decidable (Matches D L n) := inferInstanceAs (Decidable (_ ∧ _ ∧ _))

/-- The entries that are found below `D`, one after the other, where `L` was found last. -/
def scan (name : ε → List α) (D : List α) : List α → List ε → List ε
  | _, [] => []
  | L, e :: es => if Matches D L (name e) then e :: scan name D (name e) es else scan name D L es

theorem scan_of_forall : ∀ {es : List ε}, (∀ e ∈ es, ¬ Matches D L (name e)) →
    ∀ es', scan name D L (es ++ es') = scan name D L es'
  | [], _, _ => rfl
  | e :: es, h, es' => by
    obtain ⟨he, hes⟩ := List.forall_mem_cons.mp h
    rw [List.cons_append, scan, if_neg he, scan_of_forall hes]

theorem scan_sublist : ∀ {L : List α} {es : List ε}, (scan name D L es).Sublist es
  | _, [] => List.Sublist.refl _
  | L, e :: es => by
    rw [scan]
    split
    · exact scan_sublist.cons_cons e
    · exact scan_sublist.cons e

/-- The first entry that is found. -/
theorem scan_eq_cons : ∀ {es : List ε} {xs : List ε}, scan name D L es = x :: xs →
    ∃ pre post, es = pre ++ x :: post ∧ (∀ e ∈ pre, ¬ Matches D L (name e)) ∧ Matches D L (name x) ∧
      scan name D (name x) post = xs
  | e :: es, xs, h => by
    rw [scan] at h
    split at h
    · rename_i hmatch
      obtain ⟨rfl, rfl⟩ := List.cons.inj h
      exact ⟨[], es, rfl, fun _ h => absurd h List.not_mem_nil, hmatch, rfl⟩
    · rename_i hmatch
      obtain ⟨pre, post, rfl, hpre, hx, hxs⟩ := scan_eq_cons h
      exact ⟨e :: pre, post, rfl, List.forall_mem_cons.mpr ⟨hmatch, hpre⟩, hx, hxs⟩

theorem scan_eq_nil : ∀ {es : List ε}, scan name D L es = [] → ∀ e ∈ es, ¬ Matches D L (name e)
  | [], _, _, h => absurd h List.not_mem_nil
  | e :: es, h, x, hx => by
    rw [scan] at h
    split at h
    · cases h
    · rename_i hmatch
      rcases List.mem_cons.mp hx with rfl | hx
      · exact hmatch
      · exact scan_eq_nil h x hx

/-- A scan of a forest finds what it finds among the roots. -/
theorem Named.scan_entries : ∀ {f : Forest ε} {L : List α}, Named name d D f → ∀ {es' : List ε},
    (∀ e ∈ es', ¬ ProperPrefix D (name e)) →
    scan name D L (f.entries ++ es') = scan name D L f.roots
  | nil, L, _, es', hes' => by
    have hnone : ∀ e ∈ es', ¬ Matches D L (name e) := fun e he hm => hes' e he hm.1
    have h := scan_of_forall hnone []
    rwa [List.append_nil] at h
  | file e rest, L, h, es', hes' => by
    rw [entries, roots, List.cons_append, scan, scan, h.2.scan_entries hes', h.2.scan_entries hes']
  | dir e sub rest, L, h, es', hes' => by
    obtain ⟨⟨c, hc, he⟩, hsub, hrest⟩ := h
    have hself : ProperPrefix D (name e) := by
      rw [he, List.append_assoc]
      exact properPrefix_append (List.append_ne_nil_of_left_ne_nil hc.1 _)
    -- What is below the directory is also below the last entry, whether the directory is found or not.
    have hskip : ∀ L', D ≠ L' → L' <+: name e → ∀ x ∈ sub.entries, ¬ Matches D L' (name x) := by
      rintro L' hne hpre x hx ⟨-, -, heq | hnot⟩
      · exact hne heq
      · obtain ⟨hx, hlen⟩ := hsub.properPrefix x hx
        exact hnot ⟨hpre.trans hx, hpre.length_le.trans_lt hlen⟩
    rw [entries, roots, List.cons_append, List.append_assoc, scan, scan]
    split
    · rw [scan_of_forall (hskip _ hself.ne List.prefix_rfl), hrest.scan_entries hes']
    · rename_i hmatch
      have hlast : D ≠ L ∧ L <+: name e := by
        by_cases heq : L = name e
        · exact ⟨heq ▸ hself.ne, heq ▸ List.prefix_rfl⟩
        · have hnot : ¬ (D = L ∨ ¬ ProperPrefix L (name e)) := fun h => hmatch ⟨hself, heq, h⟩
          rw [not_or, not_not] at hnot
          exact ⟨hnot.1, hnot.2.1⟩
      rw [scan_of_forall (hskip _ hlast.1 hlast.2), hrest.scan_entries hes']

/-- A scan finds every entry below `D` where none goes on from the one before it. -/
theorem scan_eq_self_iff_of_ne : ∀ {es : List ε} {L : List α}, D ≠ L →
    (∀ e ∈ es, ProperPrefix D (name e)) → (L :: es.map name).Nodup →
    (scan name D L es = es ↔ (L :: es.map name).IsChain fun a b => ¬ ProperPrefix a b)
  | [], L, _, _, _ => by simp [scan]
  | e :: es, L, hne, hes, hnodup => by
    obtain ⟨he, hes⟩ := List.forall_mem_cons.mp hes
    rw [List.map_cons, List.nodup_cons, List.mem_cons, not_or] at hnodup
    have ih := scan_eq_self_iff_of_ne he.ne hes hnodup.2
    rw [List.map_cons, List.isChain_cons_cons, ← ih, scan]
    by_cases hpre : ProperPrefix L (name e)
    · have hmatch : ¬ Matches D L (name e) := fun h => h.2.2.elim hne fun h => h hpre
      rw [if_neg hmatch]
      refine iff_of_false (fun h => ?_) fun h => h.1 hpre
      have hsub : (scan name D L es).Sublist es := scan_sublist
      have hlen := hsub.length_le
      rw [h, List.length_cons] at hlen
      omega
    · rw [if_pos ⟨he, hnodup.1.1, .inr hpre⟩, List.cons.injEq, eq_self_iff_true, true_and]
      exact ⟨fun h => ⟨hpre, h⟩, And.right⟩

/-- A scan from a directory on. -/
theorem scan_eq_self_iff (hes : ∀ e ∈ es, ProperPrefix D (name e)) (hnodup : (es.map name).Nodup) :
    scan name D D es = es ↔ (es.map name).IsChain fun a b => ¬ ProperPrefix a b := by
  cases es with
  | nil => simp [scan]
  | cons e es =>
    obtain ⟨he, hes⟩ := List.forall_mem_cons.mp hes
    rw [scan, if_pos ⟨he, he.ne, .inl rfl⟩, List.cons.injEq, eq_self_iff_true, true_and]
    exact scan_eq_self_iff_of_ne he.ne hes hnodup

end scan

end Nascent.Forests
