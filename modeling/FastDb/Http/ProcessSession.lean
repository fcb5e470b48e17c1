import Mathlib.Data.List.Count

/-! # HTTP sessions

`HttpServer::process_session` of `deprecated/HttpServer.h`: the loop that reads a request,
serves it as a static file or passes it to every route whose pattern matches, and writes
the responses. The path of a static file begins with a dot, so every GET is served as one.
After a handler completes, its response is written and the loop over the routes goes on, and
what is left after that loop is written in any case; so a request that no static file
serves has one response more than handlers that completed
(`FastDb.Http.one_response_iff`).
-/

namespace FastDb.Http

/-- `http::request<http::string_body>`. -/
structure Request where
  method : String
  target : String
  fields : List (String × String) := []
  body : String := ""
deriving DecidableEq

/-- `http::response<http::string_body>`. -/
structure Response where
  result : Nat := 200
  fields : List (String × String) := []
  body : String := ""
deriving DecidableEq

namespace Response

/-- `res.set(name, value)`. -/
def set (response : Response) (name value : String) : Response :=
  { response with
    fields := (response.fields.filter fun field => field.1 ≠ name) ++ [(name, value)] }

/-- The response 404. -/
def notFound (response : Response) : Response :=
  { response with result := 404, body := "Not Found" }

/-- The response 500. -/
def internalServerError (response : Response) : Response :=
  { response with result := 500, body := "Internal Server Error" }

/-- `res.prepare_payload()`. -/
def preparePayload (response : Response) : Response :=
  response.set "Content-Length" (toString response.body.utf8ByteSize)

end Response

/-- How a handler ends: what it leaves of the world, the request and the response. -/
inductive Outcome (World : Type)
  | completed (world : World) (request : Request) (response : Response)
  /-- With a `std::exception`. -/
  | thrown (world : World) (request : Request) (response : Response)
  /-- With an exception of another type, which nothing catches. -/
  | escaped
  deriving DecidableEq

/-- `Route::handler`, the wrapper that `add_route` puts around a handler of the user: where that
one throws a `std::exception`, it completes with an error response. The world is all that it
reads and writes besides. -/
abbrev RequestHandler (World : Type) :=
  World → Request → Response → List String → Outcome World

/-- What `regex_match` answers for a pattern and a path. -/
inductive RegexMatch
  /-- The pattern does not compile, or the match throws. -/
  | thrown
  | different
  | groups (args : List String)
  deriving DecidableEq

/-- What is found at the path of a static file. -/
inductive StaticFile
  | missing
  | contents (text : String)
  /-- Looking for it, opening it or reading it throws. -/
  | unreadable
  deriving DecidableEq

/-- The libraries a session calls: the path of a target that parses as a URL, the regular
expressions, the file tree, and what `std::move` leaves of a written response. -/
structure Libraries (World : Type) where
  urlPath : String → Option String
  regexMatch : String → String → RegexMatch
  file : World → String → StaticFile
  moved : Response → Response

/-- `HttpServer::routes_`: for each method its patterns and handlers, in the order in which
they are gone through. -/
structure HttpServer (World : Type) where
  routes : String → List (String × RequestHandler World)

/-- `HttpServer::mime_types`. -/
def mimeTypes : List (String × String) := [
  (".htm", "text/html"),
  (".html", "text/html"),
  (".php", "text/html"),
  (".css", "text/css"),
  (".txt", "text/plain"),
  (".js", "application/javascript"),
  (".json", "application/json"),
  (".xml", "application/xml"),
  (".swf", "application/x-shockwave-flash"),
  (".flv", "video/x-flv"),
  (".png", "image/png"),
  (".jpe", "image/jpeg"),
  (".jpeg", "image/jpeg"),
  (".jpg", "image/jpeg"),
  (".gif", "image/gif"),
  (".bmp", "image/bmp"),
  (".ico", "image/vnd.microsoft.icon"),
  (".tiff", "image/tiff"),
  (".tif", "image/tiff"),
  (".svg", "image/svg+xml"),
  (".svgz", "image/svg+xml")]

/-- `mime_type`, of a path with a dot. The view returned is taken as its text, as if what it
points into lived on. -/
def mimeType (path : String) : String :=
  let extension := '.' :: (path.toList.reverse.takeWhile fun char => char ≠ '.').reverse
  (mimeTypes.lookup (String.ofList extension)).getD "application/text"

/-- What the loop over the routes leaves: the response, what was written, and whether the
session goes on. -/
structure Routed (World : Type) where
  response : Response
  written : List Response
  alive : Bool

/-- The loop over the routes of the method, with the path of the request. Both `continue`
statements of its body go on with the next route. -/
def handleRoutes {World : Type} (libraries : Libraries World) (path : String) :
    List (String × RequestHandler World) → World → Request → Response → Routed World
  | [], _, _, response => ⟨response, [], true⟩
  | (pattern, handler) :: routes, world, request, response =>
      match libraries.regexMatch pattern path with
      | .thrown => ⟨response, [], false⟩
      | .different => handleRoutes libraries path routes world request response
      | .groups args =>
          match handler world request
              (response.set "Content-Type" "text/plain; charset=utf-8") args with
          | .completed world request response =>
              let later := handleRoutes libraries path routes world request
                (libraries.moved response)
              { later with written := response :: later.written }
          | .thrown world request response =>
              handleRoutes libraries path routes world request response.internalServerError
          | .escaped => ⟨response, [], false⟩

/-- What the processing of one request writes, and whether the session goes on. -/
structure Turn where
  written : List Response
  alive : Bool

section Session

variable {World : Type} (libraries : Libraries World) (server : HttpServer World)

/-- The body of the loop after `async_read`. -/
def processRequest (world : World) (request : Request) : Turn :=
  match libraries.urlPath request.target with
  | none => ⟨[], false⟩
  | some path =>
      let filePath := "./static/" ++ request.target
      if request.method = "GET" ∧ '.' ∈ filePath.toList then
        let response := ({} : Response).set "Content-Type" (mimeType filePath)
        match libraries.file world filePath with
        | .contents text => ⟨[{ response with body := text }.preparePayload], true⟩
        | .missing => ⟨[response.notFound], true⟩
        | .unreadable => ⟨[], false⟩
      else
        let routed := handleRoutes libraries path (server.routes request.method) world request {}
        if routed.alive then
          let response :=
            if routed.response.body = "" then routed.response.notFound else routed.response
          ⟨routed.written ++ [response], true⟩
        else ⟨routed.written, false⟩

/-- What a session does on its stream. -/
inductive Action
  | read (request : Request)
  | write (response : Response)
  deriving DecidableEq

/-- `process_session` over the requests that arrive, each with the world it is read in. -/
def processSession : List (World × Request) → List Action
  | [] => []
  | (world, request) :: requests =>
      let turn := processRequest libraries server world request
      .read request :: turn.written.map .write ++
        if turn.alive then processSession requests else []

/-- The requests that a session reads before it ends. -/
def requestsRead : List (World × Request) → List (World × Request)
  | [] => []
  | (world, request) :: requests =>
      (world, request) ::
        if (processRequest libraries server world request).alive then requestsRead requests
        else []

/-- One response is written after every request, before the next one is read. -/
def OnePerRequest : List Action → Prop
  | [] => True
  | .read _ :: .write _ :: actions => OnePerRequest actions
  | _ => False

/-- How a route that matches ends, or the one whose pattern throws. -/
inductive Call
  | completed
  | thrown
  | ended
  deriving DecidableEq

/-- The routes that match, in order, up to one that ends the session. -/
def calls (path : String) :
    List (String × RequestHandler World) → World → Request → Response → List Call
  | [], _, _, _ => []
  | (pattern, handler) :: routes, world, request, response =>
      match libraries.regexMatch pattern path with
      | .thrown => [.ended]
      | .different => calls path routes world request response
      | .groups args =>
          match handler world request
              (response.set "Content-Type" "text/plain; charset=utf-8") args with
          | .completed world request response =>
              .completed :: calls path routes world request (libraries.moved response)
          | .thrown world request response =>
              .thrown :: calls path routes world request response.internalServerError
          | .escaped => [.ended]

/-- Every handler that is called throws, or one completes and a later route ends the
session. -/
def CompletesNone (calls : List Call) : Prop :=
  (∀ call ∈ calls, call = .thrown) ∨ calls.count .completed = 1 ∧ .ended ∈ calls

/-- The target parses; the static file of a GET can be looked up, and of any other request no
handler completes. -/
def AnsweredOnce (world : World) (request : Request) : Prop :=
  ∃ path, libraries.urlPath request.target = some path ∧
    if request.method = "GET" then
      libraries.file world ("./static/" ++ request.target) ≠ .unreadable
    else CompletesNone (calls libraries path (server.routes request.method) world request {})

variable {libraries server}

/-- A handler that completes writes, and nothing else in the loop does. -/
theorem handleRoutes_calls (libraries : Libraries World) (path : String)
    (routes : List (String × RequestHandler World))
    (world : World) (request : Request) (response : Response) :
    (handleRoutes libraries path routes world request response).written.length =
        (calls libraries path routes world request response).count .completed ∧
      ((handleRoutes libraries path routes world request response).alive = true ↔
        .ended ∉ calls libraries path routes world request response) := by
  induction routes generalizing world request response with
  | nil => simp [handleRoutes, calls]
  | cons route routes ih =>
      obtain ⟨pattern, handler⟩ := route
      unfold handleRoutes calls
      split
      · simp
      · exact ih world request response
      · split
        · next world request response _ =>
            obtain ⟨written, alive⟩ := ih world request (libraries.moved response)
            simp [written, alive]
        · next world request response _ =>
            obtain ⟨written, alive⟩ := ih world request response.internalServerError
            simp [written, alive]
        · simp

/-- Calls complete none exactly when what completes makes one response, counting the one
that is written after the loop. -/
theorem completesNone_iff (calls : List Call) :
    CompletesNone calls ↔ calls.count .completed = if .ended ∈ calls then 1 else 0 := by
  unfold CompletesNone
  split
  · next ends =>
      constructor
      · intro none
        rcases none with thrown | once
        · cases thrown _ ends
        · exact once.1
      · exact fun once => Or.inr ⟨once, ends⟩
  · next goesOn =>
      rw [List.count_eq_zero]
      constructor
      · intro none completed
        rcases none with thrown | once
        · cases thrown _ completed
        · exact goesOn once.2
      · intro none
        left
        intro call member
        cases call with
        | completed => exact absurd member none
        | thrown => rfl
        | ended => exact absurd member goesOn

/-- The path of a static file has a dot. -/
theorem dot_mem_filePath (target : String) : '.' ∈ ("./static/" ++ target).toList := by
  rw [String.toList_append]
  exact List.mem_append_left _ (by decide)

/-- A GET is served from the file tree, whatever the routes. -/
theorem processRequest_get {path : String} {world : World} {request : Request}
    (parsed : libraries.urlPath request.target = some path) (get : request.method = "GET") :
    (processRequest libraries server world request).written.length = 1 ↔
      libraries.file world ("./static/" ++ request.target) ≠ .unreadable := by
  rw [processRequest, parsed]
  simp only [get, dot_mem_filePath, and_self, ↓reduceIte]
  cases libraries.file world ("./static/" ++ request.target) with
  | missing => simp
  | contents text => simp
  | unreadable => simp

/-- Any other request has one response more than handlers that completed, unless a route
ends the session. -/
theorem processRequest_other {path : String} {world : World} {request : Request}
    (parsed : libraries.urlPath request.target = some path) (other : request.method ≠ "GET") :
    (processRequest libraries server world request).written.length = 1 ↔
      CompletesNone (calls libraries path (server.routes request.method) world request {}) := by
  obtain ⟨written, alive⟩ :=
    handleRoutes_calls libraries path (server.routes request.method) world request {}
  rw [completesNone_iff, ← written, processRequest, parsed]
  simp only [other, false_and, ↓reduceIte]
  split
  · next goesOn =>
      rw [if_neg (alive.mp goesOn), List.length_append, List.length_singleton]
      exact Nat.succ_inj
  · next stops =>
      rw [if_pos (not_not.mp (mt alive.mpr stops))]

/-- A request is answered once exactly if it is so by what its handlers do. -/
theorem processRequest_written_iff (world : World) (request : Request) :
    (processRequest libraries server world request).written.length = 1 ↔
      AnsweredOnce libraries server world request := by
  unfold AnsweredOnce
  cases parsed : libraries.urlPath request.target with
  | none => simp [processRequest, parsed]
  | some path =>
      by_cases get : request.method = "GET"
      · simp only [processRequest_get parsed get, get, ↓reduceIte, Option.some.injEq,
          exists_eq_left']
      · simp only [processRequest_other parsed get, get, ↓reduceIte, Option.some.injEq,
          exists_eq_left']

/-- After a request that is read, one response is written before anything else is read
exactly when its turn writes one. -/
theorem onePerRequest_turn (request : Request) (written : List Response) {rest : List Action}
    (reads : rest = [] ∨ ∃ next actions, rest = .read next :: actions) :
    OnePerRequest (.read request :: written.map .write ++ rest) ↔
      written.length = 1 ∧ OnePerRequest rest := by
  match written with
  | [] =>
      obtain rfl | ⟨next, actions, rfl⟩ := reads
      · simp [OnePerRequest]
      · simp [OnePerRequest]
  | [response] => simp [OnePerRequest]
  | _ :: _ :: _ => simp [OnePerRequest]

/-- What a session does begins with a request, if anything. -/
theorem processSession_reads (requests : List (World × Request)) :
    processSession libraries server requests = [] ∨
      ∃ next actions, processSession libraries server requests = .read next :: actions := by
  cases requests with
  | nil => exact Or.inl rfl
  | cons head requests => exact Or.inr ⟨head.2, _, rfl⟩

/-- **One response per request.** A session writes one response after every request it reads,
before the next one, exactly when every request it reads has a target that parses, a static
file that can be looked up if it is a GET, and no handler that completes if it is not, as
`Route::handler` does also where the user's handler throws. The views `mime_type` and
`target.path()` return, and those of the groups, are taken as their texts. -/
theorem one_response_iff (libraries : Libraries World) (server : HttpServer World)
    (requests : List (World × Request)) :
    OnePerRequest (processSession libraries server requests) ↔
      ∀ read ∈ requestsRead libraries server requests,
        AnsweredOnce libraries server read.1 read.2 := by
  induction requests with
  | nil => simp [processSession, requestsRead, OnePerRequest]
  | cons head requests ih =>
      obtain ⟨world, request⟩ := head
      unfold processSession requestsRead
      dsimp only
      rw [onePerRequest_turn, processRequest_written_iff, List.forall_mem_cons]
      · split
        · rw [ih]
        · simp [OnePerRequest]
      · split
        · exact processSession_reads requests
        · exact Or.inl rfl

end Session

/-- Targets are their own paths, patterns match themselves, and there are no files. -/
def plainLibraries : Libraries Unit where
  urlPath := some
  regexMatch pattern path := if pattern = path then .groups [] else .different
  file _ _ := .missing
  moved := fun response => response

/-- One route, whose handler answers `done`. -/
def oneRoute : HttpServer Unit where
  routes method :=
    if method = "POST" then
      [("/posts", fun world request response _ =>
        .completed world request { response with body := "done" })]
    else []

/-- A request that matches the route is answered twice. -/
theorem one_response_twice :
    ∃ first second, processSession plainLibraries oneRoute [((), ⟨"POST", "/posts", [], ""⟩)] =
        [.read ⟨"POST", "/posts", [], ""⟩, .write first, .write second] ∧
      ¬OnePerRequest
        (processSession plainLibraries oneRoute [((), ⟨"POST", "/posts", [], ""⟩)]) := by
  have ran : processSession plainLibraries oneRoute [((), ⟨"POST", "/posts", [], ""⟩)] =
      [.read ⟨"POST", "/posts", [], ""⟩,
        .write ⟨200, [("Content-Type", "text/plain; charset=utf-8")], "done"⟩,
        .write ⟨200, [("Content-Type", "text/plain; charset=utf-8")], "done"⟩] := by
    decide +kernel
  refine ⟨_, _, ran, ?_⟩
  rw [ran]
  exact not_false

end FastDb.Http
