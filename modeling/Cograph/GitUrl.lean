import Cograph.Idempotency
import Cograph.Patterns

/-!
# The slug of a repository

`urllib.parse.urlparse` of the standard library, `validate_git_url` of
`api/repos.py` over it, and `resolve_repository_by_slug` of `mcp/services.py`.
The checks of a network location whose failure is a `ValueError`, of brackets
and of characters that normalise to delimiters, and the lower case of a host
name are parameters.
-/

namespace Cograph.GitUrl

open Regex Idempotency

/-! ## URLs -/

/-- `urllib.parse.ParseResult`, what is read of it. -/
structure ParseResult where
  scheme : Str
  netloc : Str
  path : Str
  deriving DecidableEq

/-- The characters stripped from the front of a URL. -/
def controlOrSpace (c : Char) : Bool := c.toNat ≤ 0x20

/-- The characters removed from a URL. -/
def unsafeByte (c : Char) : Bool := c = '\t' ∨ c = '\r' ∨ c = '\n'

def schemeChar (c : Char) : Bool := c.isAlphanum || c = '+' || c = '-' || c = '.'

/-- What ends a network location. -/
def netlocEnd (c : Char) : Bool := c = '/' ∨ c = '?' ∨ c = '#'

def usesParams : List Str :=
  ["", "ftp", "hdl", "prospero", "http", "imap", "https", "shttp", "rtsp", "rtsps", "rtspu", "sip", "sips", "mms",
    "sftp", "tel"].map String.toList

/-- The scheme of a URL, in lower case, and the rest. -/
def splitScheme (url : Str) : Str × Str :=
  let before := url.takeWhile (· ≠ ':')
  if ':' ∈ url ∧ before.head?.any Char.isAlpha ∧ before.all schemeChar then
    (before.map Char.toLower, (url.dropWhile (· ≠ ':')).drop 1)
  else ([], url)

/-- The network location, where there is one, and the rest. -/
def splitNetloc (rest : Str) : Str × Str :=
  if startsWith rest "//" then
    ((rest.drop 2).takeWhile fun c => ¬netlocEnd c, (rest.drop 2).dropWhile fun c => ¬netlocEnd c)
  else ([], rest)

/-- `_splitparams`, the path of it. -/
def withoutParams (path : Str) : Str :=
  let last := (path.reverse.takeWhile (· ≠ '/')).reverse
  path.take (path.length - last.length) ++ last.takeWhile (· ≠ ';')

section
variable (validNetloc : Str → Bool) (lower : Str → Str)

/-- `urlparse`. -/
def urlparse (url : Str) : Option ParseResult :=
  let url := (url.dropWhile controlOrSpace).filter fun c => ¬unsafeByte c
  let (scheme, rest) := splitScheme url
  let (netloc, rest) := splitNetloc rest
  if ¬validNetloc netloc then none
  else
    let path := (rest.takeWhile (· ≠ '#')).takeWhile (· ≠ '?')
    some ⟨scheme, netloc, if scheme ∈ usesParams then withoutParams path else path⟩

/-- What comes after the last of a character, or all of a text. -/
def afterLast (d : Char) (s : Str) : Str := (s.reverse.takeWhile (· ≠ d)).reverse

/-- The host of `_hostinfo`. -/
def hostOf (netloc : Str) : Str :=
  let hostinfo := afterLast '@' netloc
  if '[' ∈ hostinfo then ((hostinfo.dropWhile (· ≠ '[')).drop 1).takeWhile (· ≠ ']')
  else hostinfo.takeWhile (· ≠ ':')

/-- `ParseResult.hostname`. A zone keeps its case. -/
def hostname (netloc : Str) : Option Str :=
  let host := hostOf netloc
  if host = [] then none else some (lower (host.takeWhile (· ≠ '%')) ++ host.dropWhile (· ≠ '%'))

/-- The host and the path that are taken from a URL. -/
def hostAndPath (url : Str) : Option Str × Str :=
  ((urlparse validNetloc url).bind fun p => hostname lower p.netloc, ((urlparse validNetloc url).map (·.path)).getD [])

end

/-! ## The validator -/

/-- A word under `IGNORECASE`. -/
def ignoringCase : Str → Pattern
  | [] => .lit []
  | c :: w => .seq (.sat fun d => Str.fold d = c) (ignoringCase w)

/-- `[^/\s]+`. -/
def segmentRe : Pattern := .plus fun c => c ≠ '/' ∧ ¬Str.isSpace c

/-- `_HTTPS_GIT_URL_RE`. -/
def httpsGitUrlRe : Pattern :=
  .seq (ignoringCase "https".toList) (.seq (.lit "://".toList)
    (.seq segmentRe (.seq (.lit ['/']) (.seq segmentRe (.seq (.lit ['/']) segmentRe)))))

/-- `_SCP_SSH_GIT_URL_RE`. -/
def scpSshGitUrlRe : Pattern :=
  .seq (ignoringCase "git".toList) (.seq (.lit ['@'])
    (.seq (.plus fun c => c ≠ ':' ∧ c ≠ '/' ∧ ¬Str.isSpace c) (.seq (.lit [':'])
      (.seq segmentRe (.seq (.lit ['/']) segmentRe)))))

/-- `_SSH_URL_RE`, where `digit` is the `\d` of a pattern. -/
def sshUrlRe (digit : Char → Bool) : Pattern :=
  let user := .seq (.plus fun c => c ≠ '@' ∧ c ≠ '/' ∧ ¬Str.isSpace c) (.lit ['@'])
  let port := .seq (.lit [':']) (.plus digit)
  .seq (ignoringCase "ssh".toList) (.seq (.lit "://".toList) (.seq (.alt user (.lit []))
    (.seq segmentRe (.seq (.alt port (.lit [])) (.seq (.lit ['/']) (.seq segmentRe (.seq (.lit ['/']) segmentRe)))))))

inductive GitUrlError where
  | scp
  | ssh
  | url
  | segments
  | unparsed
  deriving DecidableEq

def GitUrlError.message : GitUrlError → String
  | scp => "git_url must be a valid SCP-style SSH URL (e.g. git@github.com:owner/repo.git)."
  | ssh => "git_url must be a valid SSH URL (e.g. ssh://git@github.com/owner/repo.git)."
  | url => "git_url must be a valid HTTPS or SSH git URL " ++
      "(e.g. https://github.com/owner/repo or git@github.com:owner/repo.git)."
  | segments => "git_url must include an owner and a repository path segment (e.g. https://github.com/owner/repo)."
  | unparsed => "Invalid URL"

section
variable (validNetloc : Str → Bool) (digit : Char → Bool)

/-- `CreateRepositoryRequest.validate_git_url`. -/
def validateGitUrl (v : Str) : Except GitUrlError Str :=
  if startsWith v "git@" then if (scpSshGitUrlRe.matchAt [] v).isSome then .ok v else .error .scp
  else if startsWith v "ssh://" then if ((sshUrlRe digit).matchAt [] v).isSome then .ok v else .error .ssh
  else
    match urlparse validNetloc v with
    | none => .error .unparsed
    | some parsed =>
      if parsed.scheme ≠ "https".toList ∨ parsed.netloc = [] then .error .url
      else if (httpsGitUrlRe.matchAt [] v).isSome then .ok v
      else .error .segments

end

/-! ## Slugs -/

/-- The text of a slug. -/
def slugText (g : Slug) : Str := g.host ++ '/' :: g.owner ++ '/' :: g.name

/-- The parts `resolve_repository_by_slug` reads in a text. -/
def slugParts (slug : Str) : Option Slug :=
  match pathSegments (Str.strip slug) with
  | [host, owner, name] => some ⟨host, owner, name⟩
  | _ => none

/-- `resolve_repository_by_slug`, over the repositories that are not deleted. -/
def resolveRepositoryBySlug (repositories : List Repository) (slug : Str) : Option Repository :=
  (slugParts slug).bind fun g => repositories.find? (·.slug = g)

end Cograph.GitUrl
