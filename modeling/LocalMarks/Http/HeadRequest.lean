import LocalMarks.Http.RequestLine
import LocalMarks.Http.Routes
import LocalMarks.Http.Transport

/-!
# HEAD requests

`file_serve` answers HEAD with the headers that it has for GET and leaves the body out. Its error
pages do not look at the method.
-/

namespace LocalMarks.Http
open LocalMarks.Lib

def SameHeaders (date date' : HttpDate) (r r' : Response) : Prop :=
  r.status = r'.status ∧ ∃ before after, r.lines = before ++ dateLine date :: after ∧
    r'.lines = before ++ dateLine date' :: after

/-- The answer to HEAD, at one time, is the header block of the answer to GET at another, and
nothing stands behind it. -/
def HeadMatchesGet (svc : Services) (date' : HttpDate) (req : HttpRequest) (keepAlive : Bool) :
    Prop :=
  ∃ get head, fileServe svc { req with method := .get } keepAlive = some get ∧
    fileServe { svc with date := date' } { req with method := .head } keepAlive = some head ∧
    SameHeaders svc.date date' get head ∧ head.bytes = head.lines.flatten

theorem Response.bytes_eq_lines {r : Response} : r.bytes = r.lines.flatten ↔ r.body = [] :=
  List.append_right_eq_self

/-- Two responses of one kind, of which each may or may not have its body sent. -/
theorem responseSend_sameHeaders {date date' : HttpDate} {status : ℕ} {text : Bytes}
    {mime : Option Bytes} {extra : List Bytes} {body : Bytes} {keepAlive sendBody sendBody' : Bool}
    (h : (responseSend date status text mime extra body keepAlive sendBody).isSome)
    (h' : (responseSend date' status text mime extra body keepAlive sendBody').isSome) :
    ∃ r r', responseSend date status text mime extra body keepAlive sendBody = some r ∧
      responseSend date' status text mime extra body keepAlive sendBody' = some r' ∧
      SameHeaders date date' r r' ∧ r'.body = if sendBody' then body else [] := by
  obtain ⟨r, hr⟩ := Option.isSome_iff_exists.mp h
  obtain ⟨r', hr'⟩ := Option.isSome_iff_exists.mp h'
  refine ⟨r, r', hr, hr', ?_⟩
  obtain ⟨lines, hlines, rfl⟩ := Option.map_eq_some_iff.mp hr
  obtain ⟨lines', hlines', rfl⟩ := Option.map_eq_some_iff.mp hr'
  unfold headerCacheBuild at hlines hlines'
  dsimp only at hlines hlines'
  split at hlines
  · cases hlines
  · split at hlines'
    · cases hlines'
    · cases hlines
      cases hlines'
      exact ⟨⟨rfl, [statusLine status text], _, rfl, rfl⟩, rfl⟩

/-- Neither the kind of the answer nor its headers depend on the method and the date. What is sent
whatever the method has an empty body. -/
theorem serveEntry_uniform (svc : Services) (req : HttpRequest) (entry : VfsEntry)
    (keepAlive : Bool) :
    ∃ (status : ℕ) (text : Bytes) (mime : Option Bytes) (extra : List Bytes) (body : Bytes)
      (sendBody : Bool), (sendBody → body = []) ∧
      ∀ date method, serveEntry { svc with date := date } { req with method := method } entry
        keepAlive = responseSend date status text mime extra body keepAlive
          (sendBody || method ≠ .head) := by
  let data := entry.file.bytes
  let etag := buildEtag entry.contentHash data.length
  let mime := some (mimeFromPath entry.filePath)
  let gzip := if isGzipped data then [gzipLine] else []
  by_cases htag : req.ifNoneMatch.bytes ≠ [] ∧ req.ifNoneMatch.bytes = etag
  · refine ⟨304, ascii "Not Modified", none, [etagLine etag], [], true, fun _ => rfl, ?_⟩
    intro date method
    exact if_pos htag
  · cases hr : byteRange data.length req.rangeStart req.rangeEnd with
    | unsatisfiable =>
      refine ⟨416, ascii "Range Not Satisfiable", none, [unsatisfiedRangeLine data.length], [],
        true, fun _ => rfl, ?_⟩
      intro date method
      refine (if_neg htag).trans ?_
      dsimp only
      rw [hr]
      rfl
    | whole =>
      refine ⟨200, ascii "OK", mime, [etagLine etag, acceptRangesLine] ++ gzip, data, false,
        nofun, ?_⟩
      intro date method
      refine (if_neg htag).trans ?_
      dsimp only
      rw [hr]
      rfl
    | part first last =>
      refine ⟨206, ascii "Partial Content", mime, [etagLine etag, acceptRangesLine,
        contentRangeLine first last data.length] ++ gzip,
        (data.drop first.toNat).take (last - first + 1).toNat, false, nofun, ?_⟩
      intro date method
      refine (if_neg htag).trans ?_
      dsimp only
      rw [hr]
      rfl

theorem serveEntry_head (svc : Services) (date' : HttpDate) (req : HttpRequest) (entry : VfsEntry)
    (keepAlive : Bool) :
    ∃ get head, serveEntry svc { req with method := .get } entry keepAlive = some get ∧
      serveEntry { svc with date := date' } { req with method := .head } entry keepAlive =
        some head ∧
      SameHeaders svc.date date' get head ∧ head.body = [] := by
  obtain ⟨status, text, mime, extra, body, sendBody, hbody, heq⟩ :=
    serveEntry_uniform svc req entry keepAlive
  have hget := (serveEntry_ends svc { req with method := .get } entry keepAlive).written
  have hhead := (serveEntry_ends { svc with date := date' } { req with method := .head } entry
    keepAlive).written
  rw [heq svc.date .get] at hget
  rw [heq date' .head] at hhead
  obtain ⟨get, head, hg, hh, hsame, hb⟩ := responseSend_sameHeaders hget hhead
  refine ⟨get, head, (heq svc.date .get).trans hg, (heq date' .head).trans hh, hsame, ?_⟩
  rw [hb]
  cases sendBody with
  | true => exact hbody rfl
  | false => rfl

theorem fileServe_found (svc : Services) (req : HttpRequest) {entry : VfsEntry} (keepAlive : Bool)
    (hmethod : req.method ≠ .other)
    (hfile : svc.vfsLookup (vfsPath req.path.bytes) = some entry) :
    fileServe svc req keepAlive = serveEntry svc req entry keepAlive := by
  unfold fileServe
  rw [if_neg hmethod, hfile]

theorem errorPage_ne (status : ℕ) (text detail : Bytes) :
    (errorPage status text detail).take 4095 ≠ [] := by
  have hstart : ascii "<!DOCTYPE html><html lang='en'><head><meta charset='utf-8'>" ≠ [] := by
    decide
  rw [ne_eq, List.take_eq_nil_iff, not_or]
  refine ⟨by decide, ?_⟩
  unfold errorPage
  repeat' apply List.append_ne_nil_of_left_ne_nil
  exact hstart

theorem headMatchesGet_found {svc : Services} {date' : HttpDate} {req : HttpRequest}
    {keepAlive : Bool} (h : HeadMatchesGet svc date' req keepAlive) :
    (svc.vfsLookup (vfsPath req.path.bytes)).isSome := by
  obtain ⟨get, head, -, hhead, -, hbytes⟩ := h
  cases hfile : svc.vfsLookup (vfsPath req.path.bytes) with
  | some entry => rfl
  | none =>
    unfold fileServe at hhead
    rw [if_neg (HttpMethod.noConfusion)] at hhead
    dsimp only at hhead
    rw [hfile] at hhead
    obtain ⟨lines, -, rfl⟩ := Option.map_eq_some_iff.mp hhead
    rw [Response.bytes_eq_lines] at hbytes
    exact absurd hbytes (errorPage_ne _ _ _)

/-- HEAD is answered by the header block of GET alone exactly when the path is that of an embedded
file, whatever the range and the tag in the request. -/
theorem headMatchesGet_iff (svc : Services) (date' : HttpDate) (req : HttpRequest)
    (keepAlive : Bool) :
    HeadMatchesGet svc date' req keepAlive ↔
      (svc.vfsLookup (vfsPath req.path.bytes)).isSome := by
  constructor
  · exact headMatchesGet_found
  · intro hfound
    obtain ⟨entry, hfile⟩ := Option.isSome_iff_exists.mp hfound
    obtain ⟨get, head, hget, hhead, hsame, hbody⟩ := serveEntry_head svc date' req entry keepAlive
    refine ⟨get, head, ?_, ?_, hsame, Response.bytes_eq_lines.mpr hbody⟩
    · exact (fileServe_found svc { req with method := .get } keepAlive nofun hfile).trans hget
    · exact (fileServe_found { svc with date := date' } { req with method := .head } keepAlive
        nofun hfile).trans hhead

def noFiles : Services where
  date := noDate
  vfsLookup := fun _ => none
  dbMetaCount := 0
  bookmarkCopy := fun _ => none
  databasesJson := none
  databaseJson := fun _ => none

def absentRequest : HttpRequest :=
  { emptyRequest 0 with path := fieldOf 4096 pathSize_pos (ascii "/missing") }

theorem missing_head_body : ¬ HeadMatchesGet noFiles noDate absentRequest true := by
  intro h
  cases headMatchesGet_found h

end LocalMarks.Http
