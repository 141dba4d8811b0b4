/-! # Paths and their components

A path is its characters. Slashes separate components; repeated, leading and trailing slashes add
none.
-/

namespace UnixOS.Fs

def pathComponents (path : List Char) : List (List Char) :=
  (path.splitOnP (· == '/')).filter (· ≠ [])

def IsComponent (c : List Char) : Prop := c ≠ [] ∧ ∀ x ∈ c, x ≠ '/'

def render (cs : List (List Char)) : List Char := cs.flatMap fun c => '/' :: c

def AtBoundary (rest : List Char) : Prop := rest = [] ∨ ∃ r, rest = '/' :: r

variable {p q c rest : List Char} {cs : List (List Char)}

@[simp] theorem pathComponents_nil : pathComponents [] = [] := rfl

theorem pathComponents_append_slash (p q : List Char) :
    pathComponents (p ++ '/' :: q) = pathComponents p ++ pathComponents q := by
  have hSplit : (p ++ '/' :: q).splitOnP (· == '/') =
      p.splitOnP (· == '/') ++ q.splitOnP (· == '/') := List.splitOnP_append_cons p q rfl
  rw [pathComponents, hSplit, List.filter_append, pathComponents, pathComponents]

@[simp] theorem pathComponents_slash (p : List Char) : pathComponents ('/' :: p) = pathComponents p := by
  simpa using pathComponents_append_slash [] p

theorem pathComponents_component (h : IsComponent c) : pathComponents c = [c] := by
  have hSplit : c.splitOnP (· == '/') = [c] := 
    List.splitOnP_eq_singleton fun x hx => by simpa using h.2 x hx
  simp [pathComponents, hSplit, h.1]

theorem pathComponents_component_append (h : IsComponent c) (hRest : AtBoundary rest) :
    pathComponents (c ++ rest) = c :: pathComponents rest := by
  rcases hRest with rfl | ⟨r, rfl⟩
  · simpa using pathComponents_component h
  · rw [pathComponents_append_slash, pathComponents_component h, pathComponents_slash]
    rfl

theorem pathComponents_render_append (hCs : ∀ c ∈ cs, IsComponent c) (hRest : AtBoundary rest) :
    pathComponents (render cs ++ rest) = cs ++ pathComponents rest := by
  induction cs with
  | nil => rfl
  | cons c cs ih =>
    have hTail := ih fun d hd => hCs d (by simp [hd])
    have hBoundary : AtBoundary (render cs ++ rest) := by
      cases cs with
      | nil => exact hRest
      | cons d ds => exact .inr ⟨_, rfl⟩
    have hText : render (c :: cs) ++ rest = '/' :: (c ++ (render cs ++ rest)) := by
      simp [render]
    rw [hText, pathComponents_slash, pathComponents_component_append (hCs c (by simp)) hBoundary, hTail]
    rfl

theorem pathComponents_render (hCs : ∀ c ∈ cs, IsComponent c) : pathComponents (render cs) = cs := by
  simpa using pathComponents_render_append hCs (.inl rfl)

theorem pathComponents_dropWhile (p : List Char) :
    pathComponents (p.dropWhile (· == '/')) = pathComponents p := by
  induction p with
  | nil => rfl
  | cons x p ih =>
    by_cases hx : x = '/'
    · subst hx
      simpa using ih
    · simp [hx]

end UnixOS.Fs
