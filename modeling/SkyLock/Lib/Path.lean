/-
# Slash-separated paths

Go's `path` package, on strings taken as lists of characters: `clean`, `dir` and `base` follow
the documented lexical processing of `path.Clean`, `path.Dir` and `path.Base` (split at the
slashes, drop empty and `.` elements, let `..` remove the element before it, and at the root
remove itself).

A CLEAN rooted path is the same thing as a list of path elements, none of them empty, `.`,
`..` or containing a slash.  `render` writes such a list as a path; on rendered paths the three
functions are list operations (`clean_render`, `dir_render_concat`, `base_render_concat`), and
every rooted path cleans to a rendered one (`clean_rooted`).  Later proofs move to element lists
through these and never look at characters again.
-/
import Mathlib

/-- A Go string, as its list of characters.  Go compares strings byte by byte, which on UTF-8
text is the order of the code points, the lexicographic order of this type. -/
abbrev Str := List Char

-- named once, so that the definitions that look a text up in a list share it
instance : LawfulBEq Str := inferInstance

namespace Slash

/-! ## 1. `Clean`, `Dir` and `Base` -/

/-- One path element, processed against the elements kept so far (newest first). -/
def cleanStep (rooted : Bool) (out : List Str) (e : Str) : List Str :=
  if e = [] ∨ e = ['.'] then out
  else if e = ['.', '.'] then
    match out with
    | [] => if rooted then [] else [e]
    | x :: xs => if x = ['.', '.'] then e :: out else xs
  else e :: out

/-- The elements that survive the lexical processing, in path order. -/
def cleanElems (rooted : Bool) (es : List Str) : List Str :=
  (es.foldl (cleanStep rooted) []).reverse

/-- `path.Clean`. -/
def clean (p : Str) : Str :=
  let rooted : Bool := p.head? = some '/'
  let body := ['/'].intercalate (cleanElems rooted (p.splitOn '/'))
  if rooted then '/' :: body else if body = [] then ['.'] else body

/-- `path.Split`, first part: everything up to and including the last slash. -/
def splitDir (p : Str) : Str := (p.reverse.dropWhile (· ≠ '/')).reverse

/-- `path.Split`, second part: everything after the last slash. -/
def splitFile (p : Str) : Str := (p.reverse.takeWhile (· ≠ '/')).reverse

/-- `path.Dir`. -/
def dir (p : Str) : Str := clean (splitDir p)

/-- `path.Base`: the last element, after stripping trailing slashes. -/
def base (p : Str) : Str :=
  if p = [] then ['.']
  else
    let file := splitFile (p.reverse.dropWhile (· = '/')).reverse
    if file = [] then ['/'] else file

/-! ## 2. Path elements and rendered paths -/

/-- A path element that `clean` keeps: not empty, without a slash, neither `.` nor `..`. -/
def IsElem (e : Str) : Prop := e ≠ [] ∧ '/' ∉ e ∧ e ≠ ['.'] ∧ e ≠ ['.', '.']

instance (e : Str) : Decidable (IsElem e) := inferInstanceAs (Decidable (_ ∧ _ ∧ _ ∧ _))

/-- The rooted path with the given elements. -/
def render (es : List Str) : Str := '/' :: ['/'].intercalate es

@[simp] theorem render_nil : render [] = ['/'] := rfl

@[simp] theorem head?_render (es : List Str) : (render es).head? = some '/' := rfl

theorem render_ne_nil (es : List Str) : render es ≠ [] := List.cons_ne_nil _ _

theorem intercalate_concat {es : List Str} (hes : es ≠ []) (e : Str) :
    ['/'].intercalate (es ++ [e]) = ['/'].intercalate es ++ '/' :: e := by
  induction es with
  | nil => exact absurd rfl hes
  | cons x xs ih =>
    cases xs with
    | nil => simp [List.intercalate, List.intersperse]
    | cons y ys =>
      have ih' := ih (List.cons_ne_nil y ys)
      simp only [List.intercalate, List.cons_append, List.intersperse,
        List.flatten_cons] at ih' ⊢
      rw [ih']
      simp

/-- Descending one element appends a slash and the element, except at the root. -/
theorem render_concat {es : List Str} (hes : es ≠ []) (e : Str) :
    render (es ++ [e]) = render es ++ '/' :: e := by
  simp only [render, intercalate_concat hes, List.cons_append]

theorem render_singleton (e : Str) : render [e] = '/' :: e := by
  simp [render, List.intercalate, List.intersperse]

theorem render_eq_intercalate {es : List Str} (hes : es ≠ []) :
    render es = ['/'].intercalate ([] :: es) := by
  cases es with
  | nil => exact absurd rfl hes
  | cons x xs => simp [render, List.intercalate, List.intersperse]

theorem splitOn_render {es : List Str} (hes : es ≠ []) (h : ∀ e ∈ es, IsElem e) :
    (render es).splitOn '/' = [] :: es := by
  rw [render_eq_intercalate hes]
  refine List.splitOn_intercalate '/' ?_ (List.cons_ne_nil _ _)
  intro l hl
  rcases List.mem_cons.mp hl with rfl | hl
  · exact List.not_mem_nil
  · exact (h l hl).2.1

theorem splitOn_root : (render []).splitOn '/' = [[], []] := by decide

/-- A rendered path determines its elements. -/
theorem render_injective {es fs : List Str} (he : ∀ e ∈ es, IsElem e) (hf : ∀ e ∈ fs, IsElem e)
    (h : render es = render fs) : es = fs := by
  -- the elements are what `splitOn` gives back, and no element is empty, unlike the root's
  have key : ∀ {gs : List Str}, (∀ e ∈ gs, IsElem e) → [[], []] = [] :: gs → False := by
    intro gs hg hgs
    have hmem : ([] : Str) ∈ gs := by
      rw [← (List.cons.inj hgs).2]; exact List.mem_singleton.mpr rfl
    exact (hg _ hmem).1 rfl
  have h2 : (render es).splitOn '/' = (render fs).splitOn '/' := by rw [h]
  cases es with
  | nil =>
    cases fs with
    | nil => rfl
    | cons f fs =>
      rw [splitOn_root, splitOn_render (List.cons_ne_nil _ _) hf] at h2
      exact (key hf h2).elim
  | cons e es =>
    cases fs with
    | nil =>
      rw [splitOn_root, splitOn_render (List.cons_ne_nil _ _) he] at h2
      exact (key he h2.symm).elim
    | cons f fs =>
      rw [splitOn_render (List.cons_ne_nil _ _) he, splitOn_render (List.cons_ne_nil _ _) hf] at h2
      exact (List.cons.inj h2).2

/-! ## 3. Cleaning -/

theorem cleanStep_elem {rooted : Bool} {out : List Str} {e : Str} (h : IsElem e) :
    cleanStep rooted out e = e :: out := by
  unfold cleanStep
  rw [if_neg (by rintro (h0 | h1); exacts [h.1 h0, h.2.2.1 h1]), if_neg h.2.2.2]

/-- At the root the processing keeps only path elements, whatever it is fed. -/
theorem cleanStep_isElem {out : List Str} {e : Str} (hout : ∀ x ∈ out, IsElem x)
    (he : '/' ∉ e) : ∀ x ∈ cleanStep true out e, IsElem x := by
  unfold cleanStep
  split
  · exact hout
  · rename_i h1
    split
    · cases out with
      | nil => simp
      | cons y ys =>
        have hy : y ≠ ['.', '.'] := (hout y List.mem_cons_self).2.2.2
        simp only [if_neg hy]
        exact fun x hx => hout x (List.mem_cons_of_mem _ hx)
    · rename_i h2
      intro x hx
      rcases List.mem_cons.mp hx with rfl | hx
      · exact ⟨fun h => h1 (Or.inl h), he, fun h => h1 (Or.inr h), h2⟩
      · exact hout x hx

theorem foldl_cleanStep_isElem : ∀ (es : List Str) (out : List Str),
    (∀ x ∈ out, IsElem x) → (∀ e ∈ es, '/' ∉ e) →
      ∀ x ∈ es.foldl (cleanStep true) out, IsElem x
  | [], _, hout, _ => hout
  | e :: es, out, hout, hes =>
    foldl_cleanStep_isElem es (cleanStep true out e)
      (cleanStep_isElem hout (hes e List.mem_cons_self))
      (fun x hx => hes x (List.mem_cons_of_mem _ hx))

theorem foldl_cleanStep_elems {rooted : Bool} : ∀ (es : List Str) (out : List Str),
    (∀ e ∈ es, IsElem e) → es.foldl (cleanStep rooted) out = es.reverse ++ out
  | [], _, _ => rfl
  | e :: es, out, h => by
    rw [List.foldl_cons, cleanStep_elem (h e List.mem_cons_self),
      foldl_cleanStep_elems es _ (fun x hx => h x (List.mem_cons_of_mem _ hx))]
    simp

theorem cleanElems_elems {rooted : Bool} {es : List Str} (h : ∀ e ∈ es, IsElem e) :
    cleanElems rooted es = es := by
  simp [cleanElems, foldl_cleanStep_elems es [] h]

theorem cleanElems_nil_cons {rooted : Bool} (es : List Str) :
    cleanElems rooted ([] :: es) = cleanElems rooted es := by
  simp [cleanElems, cleanStep]

theorem not_mem_of_mem_splitOn : ∀ {p l : Str}, l ∈ p.splitOn '/' → '/' ∉ l
  | [], l, h => by
    simp only [List.splitOn_nil, List.mem_singleton] at h
    exact h ▸ List.not_mem_nil
  | c :: p, l, h => by
    have ih := fun l => @not_mem_of_mem_splitOn p l
    simp only [List.splitOn, List.splitOnP_cons_eq_if_modifyHead] at h ih
    obtain ⟨x, xs, hx⟩ := List.exists_cons_of_ne_nil (List.splitOnP_ne_nil (· == '/') p)
    rw [hx] at h ih
    split at h
    · rcases List.mem_cons.mp h with rfl | h
      · exact List.not_mem_nil
      · exact ih l h
    · rename_i hc
      simp only [List.modifyHead_cons, List.mem_cons] at h
      rcases h with rfl | h
      · simp only [List.mem_cons, not_or]
        exact ⟨fun hc' => hc (by simp [← hc']), ih x List.mem_cons_self⟩
      · exact ih l (List.mem_cons_of_mem _ h)

theorem clean_eq_render {p : Str} (h : p.head? = some '/') :
    clean p = render (cleanElems true (p.splitOn '/')) := by
  simp [clean, h, render]

theorem isElem_of_mem_cleanElems (p : Str) : ∀ e ∈ cleanElems true (p.splitOn '/'), IsElem e := by
  intro e he
  refine foldl_cleanStep_isElem (p.splitOn '/') [] (by simp)
    (fun x hx => not_mem_of_mem_splitOn hx) e ?_
  simpa [cleanElems] using he

/-- **Every rooted path cleans to a rendered one.** -/
theorem clean_rooted {p : Str} (h : p.head? = some '/') :
    ∃ es, (∀ e ∈ es, IsElem e) ∧ clean p = render es :=
  ⟨cleanElems true (p.splitOn '/'), isElem_of_mem_cleanElems p, clean_eq_render h⟩

/-- Descending by one path element before cleaning is the same as after it. -/
theorem clean_append_elem {p e : Str} {es : List Str} (hp : p.head? = some '/') (he : IsElem e)
    (hes : ∀ x ∈ es, IsElem x) (hc : clean p = render es) :
    clean (p ++ '/' :: e) = render (es ++ [e]) := by
  have hsplit : (p ++ '/' :: e).splitOn '/' = p.splitOn '/' ++ [e] := by
    have h1 : e.splitOn '/' = [e] := by
      refine List.splitOnP_eq_singleton fun c hce => ?_
      simpa using fun h : c = '/' => he.2.1 (h ▸ hce)
    rw [← h1]
    exact List.splitOnP_append_cons _ _ (by simp)
  have hhead : (p ++ '/' :: e).head? = some '/' := by
    cases p with
    | nil => cases hp
    | cons c p => exact hp
  have hel : cleanElems true (p.splitOn '/') = es :=
    render_injective (isElem_of_mem_cleanElems p) hes (clean_eq_render hp ▸ hc)
  rw [clean_eq_render hhead, hsplit, cleanElems, List.foldl_append, List.foldl_cons,
    List.foldl_nil, cleanStep_elem he, List.reverse_cons, ← cleanElems, hel]

/-- Rendered paths are clean. -/
theorem clean_render {es : List Str} (h : ∀ e ∈ es, IsElem e) : clean (render es) = render es := by
  have hc : cleanElems true ((render es).splitOn '/') = es := by
    cases es with
    | nil => decide
    | cons x xs =>
      rw [splitOn_render (List.cons_ne_nil _ _) h, cleanElems_nil_cons, cleanElems_elems h]
  rw [clean_eq_render (head?_render es), hc]

/-- A trailing slash is cleaned away. -/
theorem clean_render_slash {es : List Str} (hes : es ≠ []) (h : ∀ e ∈ es, IsElem e) :
    clean (render es ++ ['/']) = render es := by
  have hsplit : (render es ++ ['/']).splitOn '/' = ([] :: es) ++ [[]] := by
    have hr : render es ++ ['/'] = ['/'].intercalate ([] :: es ++ [[]]) := by
      rw [intercalate_concat (List.cons_ne_nil _ _), ← render_eq_intercalate hes]
    rw [hr]
    refine List.splitOn_intercalate '/' ?_ (by simp)
    intro l hl
    simp only [List.cons_append, List.mem_cons, List.mem_append, List.not_mem_nil,
      or_false] at hl
    rcases hl with rfl | hl | rfl
    · exact List.not_mem_nil
    · exact (h l hl).2.1
    · exact List.not_mem_nil
  have hc : cleanElems true (([] :: es) ++ [[]]) = es := by
    rw [List.cons_append, cleanElems_nil_cons, cleanElems, List.foldl_append,
      foldl_cleanStep_elems es [] h]
    simp [cleanStep]
  have hhead : (render es ++ ['/']).head? = some '/' := rfl
  rw [clean_eq_render hhead, hsplit, hc]

/-! ## 4. Parent and last element of a rendered path -/

theorem takeWhile_file {u v : Str} (hv : '/' ∉ v) : splitFile (u ++ '/' :: v) = v := by
  have hall : ∀ c ∈ v.reverse, decide (c ≠ '/') = true := by
    intro c hc
    simpa using fun h : c = '/' => hv (h ▸ List.mem_reverse.mp hc)
  simp only [splitFile, List.reverse_append, List.reverse_cons, List.append_assoc]
  rw [List.takeWhile_append_of_pos hall]
  simp

theorem dropWhile_file {u v : Str} (hv : '/' ∉ v) : splitDir (u ++ '/' :: v) = u ++ ['/'] := by
  have hall : ∀ c ∈ v.reverse, decide (c ≠ '/') = true := by
    intro c hc
    simpa using fun h : c = '/' => hv (h ▸ List.mem_reverse.mp hc)
  simp only [splitDir, List.reverse_append, List.reverse_cons, List.append_assoc]
  rw [List.dropWhile_append_of_pos hall]
  simp

/-- A rendered path of at least one element, cut at its last slash. -/
theorem render_concat_cut (es : List Str) (e : Str) :
    ∃ u, render (es ++ [e]) = u ++ '/' :: e ∧ clean (u ++ ['/']) = clean (render es ++ ['/']) := by
  cases es with
  | nil => exact ⟨[], by simp [render_singleton], by decide⟩
  | cons x xs => exact ⟨render (x :: xs), render_concat (List.cons_ne_nil _ _) e, rfl⟩

/-- Where a rendered path ends in a slash and a slash-free text, that text is its last element and
what stands before it is the rendered parent, or empty right below the root. -/
theorem eq_of_render_concat_eq {es : List Str} {e u v : Str} (he : IsElem e) (hv : '/' ∉ v)
    (h : render (es ++ [e]) = u ++ '/' :: v) : v = e ∧ (u = render es ∨ es = [] ∧ u = []) := by
  have hve : v = e := by
    obtain ⟨w, hw, -⟩ := render_concat_cut es e
    have hfile := takeWhile_file (u := u) hv
    rw [← h, hw, takeWhile_file he.2.1] at hfile
    exact hfile.symm
  refine ⟨hve, ?_⟩
  subst hve
  rcases eq_or_ne es [] with rfl | hne
  · refine Or.inr ⟨rfl, ?_⟩
    have h2 : [] ++ ('/' :: v) = u ++ '/' :: v := (render_singleton v).symm.trans h
    exact (List.append_cancel_right h2).symm
  · rw [render_concat hne] at h
    exact Or.inl (List.append_cancel_right h).symm

/-- The parent of a rendered path drops the last element. -/
theorem dir_render_concat {es : List Str} {e : Str} (hes : ∀ x ∈ es, IsElem x) (he : IsElem e) :
    dir (render (es ++ [e])) = render es := by
  obtain ⟨u, hu, hcl⟩ := render_concat_cut es e
  rw [dir, hu, dropWhile_file he.2.1, hcl]
  cases es with
  | nil => decide
  | cons x xs => exact clean_render_slash (List.cons_ne_nil _ _) hes

/-- The base name of a rendered path is its last element. -/
theorem base_render_concat {es : List Str} {e : Str} (he : IsElem e) :
    base (render (es ++ [e])) = e := by
  obtain ⟨u, hu, -⟩ := render_concat_cut es e
  have hlast : e.reverse.head? ≠ some '/' := by
    intro h
    exact he.2.1 (List.mem_reverse.mp (List.mem_of_head? h))
  have hstrip : (render (es ++ [e])).reverse.dropWhile (· = '/') =
      (render (es ++ [e])).reverse := by
    rw [hu]
    obtain ⟨c, cs, hc⟩ := List.exists_cons_of_ne_nil (mt List.reverse_eq_nil_iff.mp he.1)
    have hne : c ≠ '/' := by
      intro h
      exact hlast (by rw [hc, h]; rfl)
    simp only [List.reverse_append, List.reverse_cons, List.append_assoc, hc, List.cons_append]
    rw [List.dropWhile_cons_of_neg (by simpa using hne)]
  rw [base, if_neg (render_ne_nil _), hstrip, List.reverse_reverse, hu, takeWhile_file he.2.1]
  simp [he.1]

/-- Text appended to a rendered path extends its last element. -/
theorem render_concat_append (es : List Str) (e t : Str) :
    render (es ++ [e]) ++ t = render (es ++ [e ++ t]) := by
  cases es with
  | nil => simp [render_singleton]
  | cons x xs =>
    rw [render_concat (List.cons_ne_nil x xs), render_concat (List.cons_ne_nil x xs),
      List.append_assoc, List.cons_append]

end Slash
