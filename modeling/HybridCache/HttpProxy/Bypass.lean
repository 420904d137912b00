/-
Which requests are answered through the cache, and under which key (`generate_cache_key` in
`cache.rs`, `should_bypass_cache`, `parse_query_params` and the gates at the head of
`handle_get_head_request` in `http_proxy.rs`).

The key is made of the path and the host. Besides the parameters that the gates ask for, nothing of
the query counts.
-/
import HybridCache.CacheTypes.Record
import HybridCache.Lib.Text

namespace HybridCache.HttpProxy

open Lib
open CacheTypes (strip_suffix)

/-- A GET request and the time it arrives at. -/
structure GetRequest where
  path : List Char
  query : Option (List Char)
  host : List Char
  headers : List (String × String)
  arrived : ℕ
deriving DecidableEq, Repr

/-! ## The cache key -/

def normalize_cache_key : List Char → List Char
  | '/' :: rest => rest
  | cache_key => cache_key

def before_first (sub : List Char) : List Char → Option (List Char)
  | [] => if sub = [] then some [] else none
  | c :: rest =>
    if sub <+: c :: rest then some [] else (before_first sub rest).map (c :: ·)

def reserved_name (name ending : List Char) : Option (List Char) :=
  if name = [] then none else if ending <:+ name then some name else some (name ++ ending)

def extract_access_point_prefix (host : List Char) : Option (List Char) :=
  match strip_suffix host ".accesspoint.s3-global.amazonaws.com".toList with
  | some name => reserved_name name ".mrap".toList
  | none =>
    match before_first ".s3-accesspoint.".toList host with
    | some name =>
      if ".amazonaws.com".toList <:+ host then reserved_name name "-s3alias".toList else none
    | none => none

/-- A bucket name, unless it is empty. -/
def nonempty_bucket (bucket : List Char) : Option (List Char) :=
  if bucket = [] then none else some bucket

def accelerate_bucket (bucket : List Char) : Option (List Char) :=
  if bucket ≠ [] ∧ '.' ∉ bucket then some bucket else none

def rsplit_once_dot (s : List Char) : Option (List Char × List Char) :=
  if '.' ∈ s then
    let last := (s.reverse.takeWhile fun c => c ≠ '.').reverse
    some (s.take (s.length - last.length - 1), last)
  else none

def legacy_bucket (without_tld : List Char) : Option (List Char) :=
  (strip_suffix without_tld ".s3".toList).bind nonempty_bucket

def regional_bucket (without_tld : List Char) : Option (List Char) :=
  match rsplit_once_dot without_tld with
  | none => legacy_bucket without_tld
  | some (before_region, region) =>
    if region = [] then legacy_bucket without_tld
    else
      match strip_suffix before_region ".s3.dualstack".toList with
      | some bucket => nonempty_bucket bucket
      | none =>
        match strip_suffix before_region ".s3".toList with
        | some bucket => nonempty_bucket bucket
        | none => legacy_bucket without_tld

def extract_virtual_hosted_bucket (host : List Char) : Option (List Char) :=
  match strip_suffix host ".s3-accelerate.dualstack.amazonaws.com".toList with
  | some bucket => accelerate_bucket bucket
  | none =>
    match strip_suffix host ".s3-accelerate.amazonaws.com".toList with
    | some bucket => accelerate_bucket bucket
    | none => (strip_suffix host ".amazonaws.com".toList).bind regional_bucket

def generate_cache_key (path host : List Char) : List Char :=
  match extract_access_point_prefix host |>.or (extract_virtual_hosted_bucket host) with
  | some name => name ++ '/' :: normalize_cache_key path
  | none => normalize_cache_key path

def GetRequest.cache_key (request : GetRequest) : List Char :=
  generate_cache_key request.path request.host

/-! ## Query parameters -/

def query_pair (pair : List Char) : String × String :=
  (String.ofList (pair.takeWhile fun c => c ≠ '='),
    String.ofList ((pair.dropWhile fun c => c ≠ '=').drop 1))

def parse_query_params (query : Option (List Char)) : List (String × String) :=
  match query with
  | none => []
  | some q => ((q.splitOn '&').map query_pair).foldl (insert_row Prod.fst) []

def get (rows : List (String × String)) (key : String) : Option String :=
  (lookup Prod.fst rows key).map Prod.snd

def contains_key (rows : List (String × String)) (key : String) : Bool :=
  (lookup Prod.fst rows key).isSome

def GetRequest.params (request : GetRequest) : List (String × String) :=
  parse_query_params request.query

/-- `is_get_object_part`, of a GET request. -/
def is_get_object_part (params : List (String × String)) : Option ℕ :=
  if contains_key params "uploadId" then none
  else
    (get params "partNumber").bind fun s =>
      (parse_unsigned (2 ^ 32 - 1) s.toList).filter fun n => 0 < n

/-! ## Gates -/

def list_reason : String := "list operation - always fetch fresh data"

def metadata_reason : String := "metadata operation - always fetch fresh data"

/-- The parameters that tell an operation other than `GetObject`, in the order they are
asked for, with the name of the operation and the reason. -/
def other_operations : List (List String × String × String) :=
  [(["list-type", "delimiter"], "ListObjects", list_reason),
    (["versions"], "ListObjectVersions", list_reason),
    (["uploads"], "ListMultipartUploads", list_reason),
    (["acl"], "GetObjectAcl", metadata_reason),
    (["attributes"], "GetObjectAttributes", metadata_reason),
    (["legal-hold"], "GetObjectLegalHold", metadata_reason),
    (["object-lock"], "GetObjectLockConfiguration", metadata_reason),
    (["retention"], "GetObjectRetention", metadata_reason),
    (["tagging"], "GetObjectTagging", metadata_reason),
    (["torrent"], "GetObjectTorrent", metadata_reason)]

def should_bypass_cache (path : List Char) (params : List (String × String)) :
    Bool × Option String × Option String :=
  if path = ['/'] then (true, some "ListBuckets", some list_reason)
  else
    match other_operations.find? fun row => row.1.any (contains_key params) with
    | some (_, operation, reason) => (true, some operation, some reason)
    | none => (false, none, none)

def has_sse_c_headers (headers : List (String × String)) : Bool :=
  headers.any fun header =>
    header.1.toLower ∈ ["x-amz-server-side-encryption-customer-algorithm",
      "x-amz-server-side-encryption-customer-key", "x-amz-server-side-encryption-customer-key-md5"]

inductive CacheBypassMode where
  | None
  | NoCache
  | NoStore
deriving DecidableEq, Repr

def directive_name (directive : List Char) : List Char :=
  ((trim_matches is_whitespace directive).map Char.toLower).takeWhile fun c => c ≠ '='

def parse_cache_control (value : String) : CacheBypassMode :=
  let names := (value.toList.splitOn ',').map directive_name
  if "no-store".toList ∈ names then .NoStore
  else if "no-cache".toList ∈ names then .NoCache
  else .None

def parse_pragma_no_cache (value : String) : Bool :=
  (trim_matches is_whitespace value.toList).map Char.toLower = "no-cache".toList

def parse_cache_bypass_headers (headers : List (String × String)) (config_enabled : Bool) :
    CacheBypassMode :=
  if config_enabled = false then .None
  else
    match ((get headers "cache-control").map parse_cache_control).getD .None with
    | .None => if (get headers "pragma").any parse_pragma_no_cache then .NoCache else .None
    | mode => mode

/-- What the gates read besides the request: the configuration, the settings of each key, and
which presigned URLs are refused when (`parse_presigned_url`). -/
structure GateEnv where
  cache_bypass_headers_enabled : Bool
  read_cache_enabled : List Char → Bool
  presigned_refused : ℕ → List (String × String) → Bool

/-- A request that is neither refused nor forwarded past the cache
(`handle_get_head_request`). -/
def uses_cache (env : GateEnv) (request : GetRequest) : Bool :=
  has_sse_c_headers request.headers = false ∧
    parse_cache_bypass_headers request.headers env.cache_bypass_headers_enabled = .None ∧
    env.presigned_refused request.arrived request.params = false ∧
    (should_bypass_cache request.path request.params).1 = false ∧
    contains_key request.params "versionId" = false ∧
    env.read_cache_enabled request.cache_key = true

end HybridCache.HttpProxy
