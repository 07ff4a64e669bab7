import Precompile.Sources.Cache
import Precompile.Sources.Fingerprint

/-!
The cache together with the sources that it has parsed.

A text is parsed when it is asked for as a source. Once caching is on, the parse is stored beside
the held text, and it goes where the text goes.
-/

namespace Precompile

/-- What parsing a source file gives. -/
structure ParsedFile where
  file : SourceFile
  fingerprint : Fingerprint
  lexed : Script.Lexed
  deriving Inhabited

namespace ParsedFile

def parse (p : Path) (content : String) : ParsedFile :=
  ⟨⟨p, content⟩, .ofText content, Script.lex content⟩

end ParsedFile

/-- A cache, and the parses stored beside the texts that it holds. -/
structure ParseCache where
  cache : SourceCache
  parses : PathMap ParsedFile
  deriving Inhabited

namespace ParseCache

def ofFiles (files : FileSystem) : ParseCache := ⟨.ofFiles files, .empty⟩

def mapCache (c : ParseCache) (f : SourceCache → SourceCache) : ParseCache :=
  { c with cache := f c.cache }

/-- The files are others now. -/
def edit (c : ParseCache) (files : FileSystem) : ParseCache :=
  c.mapCache fun cache => { cache with files }

def enableCaching (c : ParseCache) : ParseCache := c.mapCache SourceCache.enableCaching

/-! ### Reading -/

def read (c : ParseCache) (p : Path) : Except ReadError String × ParseCache :=
  (c.cache.serve p, c.mapCache (·.retain p))

/-- Stores a parse beside a held text, once caching is on. -/
def store (c : ParseCache) (p : Path) (parsed : ParsedFile) : ParseCache :=
  if c.cache.caching && c.cache.entries.contains p then
    { c with parses := c.parses.insert p parsed }
  else c

/-- The source at a path: the parse that is stored, or else what the text there is parsed to. -/
def source (c : ParseCache) (p : Path) : Except ReadError ParsedFile × ParseCache :=
  match c.parses.get? p.normalize with
  | some parsed => (.ok parsed, c)
  | none =>
    match c.read p with
    | (.error e, after) => (.error e, after)
    | (.ok content, after) =>
      let parsed := ParsedFile.parse p.normalize content
      (.ok parsed, after.store p.normalize parsed)

/-! ### Changing -/

def write (c : ParseCache) (p : Path) (content : String) (emit : Bool) : ParseCache :=
  ⟨c.cache.write p content emit, c.parses.erase p.normalize⟩

/-- Forgets what is held at a normal path, and notes that it may have changed. -/
def drop (c : ParseCache) (p : Path) : ParseCache := ⟨c.cache.drop p, c.parses.erase p⟩

def invalidate (c : ParseCache) (p : Path) : ParseCache := c.drop p.normalize

/-- Forgets the written files strictly below a directory that are not to be kept, and tells which
they were. -/
def retire (c : ParseCache) (dir : Path) (keep : List Path) : List Path × ParseCache :=
  let stale := c.cache.stale dir keep
  (stale, stale.foldl drop c)

/-- Takes the changed paths away. -/
def drain (c : ParseCache) : List Path × ParseCache :=
  (c.cache.changedPaths, c.mapCache SourceCache.clearChanged)

end ParseCache

end Precompile
