import HashedLiterals.Config.Environment

set_option autoImplicit false

namespace HashedLiterals

structure Config where
  marker : Marker
  hash : Hash.Algorithm
  extensions : List String
  sourceMap : Bool
  detectCollisions : Bool
  verbose : Bool

namespace Config

def default : Config where
  marker := .default
  hash := .djb2
  extensions := [".c", ".cc", ".cpp", ".cxx", ".h", ".hh", ".hpp", ".hxx", ".inl"]
  sourceMap := false
  detectCollisions := false
  verbose := false

def overlay (c : Config) (s : Settings) : Config where
  marker := s.marker.getD c.marker
  hash := s.hash.getD c.hash
  extensions := s.extensions.getD c.extensions
  sourceMap := s.sourceMap.getD c.sourceMap
  detectCollisions := s.detectCollisions.getD c.detectCollisions
  verbose := s.verbose.getD c.verbose

/-- All layers over the defaults. The file's layer has been read before; then the environment is
read, and last the overrides. -/
def resolve (file : Settings) (environment : Environment)
    (overrides : List (String × Option Value)) : Except ConfigError Config := do
  let ambient ← environment.settings
  let chosen ← Settings.ofFields overrides "options"
  return ((default.overlay file).overlay ambient).overlay chosen

def markerOption (text : String) : Except ConfigError Marker :=
  match Marker.ofText? text with
  | some m => .ok m
  | none => .error ⟨.badMarker, "options"⟩

end Config

end HashedLiterals
