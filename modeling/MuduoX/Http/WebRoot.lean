import MuduoX.Http.Context
import MuduoX.Http.Handler

/-! Which files `handleStaticFile` opens.

The request's path is put behind `webRoot_` as text. Behind a slash it cannot leave the web root,
since a path with a double dot in it is refused; without the slash its first component continues
the last name of the web root. -/

namespace MuduoX
namespace HttpServer

/-- The opened path names something strictly below the web root. -/
def InsideWebRoot (webRoot filepath : Bytes) : Prop :=
  Path.Inside slash dot webRoot (cStr filepath)

/-! ### What is known where a file is opened -/

theorem registerFile_notMem_handleError (r : HttpResponse) (code : HttpStatusCode)
    (msg filepath : Bytes) : .registerFile filepath ∉ handleError r code msg := by
  simp [handleError, Effect.sendResponse]

/-- A file is opened only behind the test for a double dot and when `stat` has found something
that is not a directory. -/
theorem registerFile_mem {env : Env} {req : HttpRequest} {response : HttpResponse}
    {filepath : Bytes} (h : .registerFile filepath ∈ handleStaticFile env req response) :
    hasDotDot (staticPath req) = false ∧ filepath = env.webRoot ++ staticPath req ∧
      ∃ st, env.fs.stat (cStr filepath) = some st ∧ st.isDir = false := by
  unfold handleStaticFile at h
  simp only at h
  split at h
  · exact absurd h (registerFile_notMem_handleError _ _ _ _)
  · rename_i hdots
    split at h
    · exact absurd h (registerFile_notMem_handleError _ _ _ _)
    · rename_i st hst
      split at h
      · exact absurd h (registerFile_notMem_handleError _ _ _ _)
      · rename_i hdir
        split at h
        · cases h
        · rcases List.mem_cons.mp h with h | h
          · cases h
            exact ⟨by simpa using hdots, rfl, st, hst, by simpa using hdir⟩
          · split at h
            · simp at h
            · exact absurd h (registerFile_notMem_handleError _ _ _ _)

theorem hasDotDot_of_isInfix {p : Bytes} (h : [dot, dot] <:+: p) : hasDotDot p = true := by
  obtain ⟨a, b, rfl⟩ := h
  induction a with
  | nil => rfl
  | cons c a ih => rw [List.cons_append, List.cons_append, hasDotDot, ih, Bool.or_true]

theorem cStr_isPrefix (p : Bytes) : cStr p <+: p := List.takeWhile_prefix _

theorem dotdot_notMem_components {p : Bytes} (h : hasDotDot p = false) :
    [dot, dot] ∉ Path.components slash (cStr p) := by
  intro hmem
  have hinfix := (Path.infix_of_mem_components slash hmem).trans (cStr_isPrefix p).isInfix
  rw [hasDotDot_of_isInfix hinfix] at h
  cases h

theorem cStr_append {w : Bytes} (hw : 0 ∉ w) (p : Bytes) : cStr (w ++ p) = w ++ cStr p :=
  List.takeWhile_append_of_pos fun _ hb => decide_eq_true fun h => hw (h ▸ hb)

theorem cStr_slash (p : Bytes) : cStr (slash :: p) = slash :: cStr p :=
  List.takeWhile_cons_of_pos (by decide)

/-- A path that does not name a directory ends in a name or in a double dot. -/
theorem exists_name {fs : FileSystem} {p q : Bytes} {st : FileStat}
    (hst : fs.stat (p ++ slash :: q) = some st) (hdir : st.isDir = false)
    (hdots : [dot, dot] ∉ Path.components slash q) :
    ∃ c ∈ Path.components slash q, Path.IsName dot c := by
  have hlast := Path.last_append_sep slash p q
  have hmem : Path.last slash q ∈ Path.components slash q := List.getLast_mem _
  refine ⟨_, hmem, ?_, ?_, fun h => hdots (h ▸ hmem)⟩
  · intro h
    rw [fs.isDir_of_trailing _ st hst (.inl (hlast.trans h))] at hdir
    cases hdir
  · intro h
    rw [fs.isDir_of_trailing _ st hst (.inr (hlast.trans h))] at hdir
    cases hdir

theorem staticPath_head (req : HttpRequest) :
    (staticPath req).head? = some slash ↔ req.path.head? = some slash := by
  unfold staticPath
  split
  · rename_i h
    rw [h]
    decide
  · rfl

/-- **Where the web root holds.** A file that is opened lies below the web root when the request's
path begins with a slash; and when the web root ends in a name, only then. -/
theorem insideWebRoot_iff (env : Env) (req : HttpRequest) (response : HttpResponse)
    {filepath : Bytes} (h : .registerFile filepath ∈ handleStaticFile env req response)
    (hne : env.webRoot ≠ []) (hnul : 0 ∉ env.webRoot) :
    (req.path.head? = some slash → InsideWebRoot env.webRoot filepath) ∧
      (Path.IsName dot (Path.last slash env.webRoot) →
        InsideWebRoot env.webRoot filepath → req.path.head? = some slash) := by
  obtain ⟨hdots, rfl, st, hst, hdir⟩ := registerFile_mem h
  have hcomps := dotdot_notMem_components hdots
  rw [← staticPath_head]
  unfold InsideWebRoot
  rw [cStr_append hnul] at hst ⊢
  constructor
  · intro hhead
    obtain ⟨q, hq⟩ := List.head?_eq_some_iff.mp hhead
    rw [hq, cStr_slash] at hst hcomps ⊢
    have hcomps : [dot, dot] ∉ Path.components slash (cStr q) := fun hmem =>
      hcomps (by rw [Path.components_sep]; exact List.mem_cons_of_mem _ hmem)
    exact Path.inside_of_names slash hne hcomps (exists_name hst hdir hcomps)
  · intro hname hinside
    by_contra hhead
    refine Path.not_inside_of_glued slash hname hcomps ?_ hinside
    intro hslash
    obtain ⟨q, hq⟩ := List.head?_eq_some_iff.mp hslash
    obtain ⟨t, ht⟩ := cStr_isPrefix (staticPath req)
    exact hhead (by rw [← ht, hq]; rfl)

/-- The request of the line `GET -private/key HTTP/1.1`, which `parseURI` accepts. -/
def gluedRequest : HttpRequest :=
  { HttpRequest.new with method := .kGet, version := .kHttp11, path := ascii "-private/key" }

/-- A path without a leading slash is glued to the web root: the file that is opened lies in the
directory `www-private`. -/
theorem outside_of_gluedRequest :
    HttpContext.requestLine .new (ascii "GET -private/key HTTP/1.1") 25 = (true, gluedRequest) ∧
      .registerFile (ascii "./www-private/key") ∈ handleStaticFile
        ⟨ascii "./www", none, .oneFile (ascii "./www-private/key") (by decide) (by decide), true⟩
        gluedRequest (.new false) ∧
      ¬InsideWebRoot (ascii "./www") (ascii "./www-private/key") :=
  ⟨by decide +kernel, List.mem_of_mem_head? (by decide +kernel),
    Path.not_inside_of_glued slash (by decide) (by decide) (by decide)⟩

theorem insideWebRoot_index :
    InsideWebRoot (ascii "./www") (ascii "./www/index.html") :=
  (insideWebRoot_iff
    ⟨ascii "./www", none, .oneFile (ascii "./www/index.html") (by decide) (by decide), true⟩
    { HttpRequest.new with path := ascii "/" } (.new false)
    (List.mem_of_mem_head? (by decide +kernel)) (by decide) (by decide)).1 (by decide)

end HttpServer
end MuduoX
