import Oberon.Text.Caseless

/-!
# Platforms

The platforms a program can be generated for. They differ only in the triple that the
program carries.
-/

namespace Oberon

/-- A platform. -/
inductive Platform where
  /-- The platform of the compiler itself. -/
  | native
  | linuxX86_64
  | windowsX86_64
  | macosAarch64
  deriving DecidableEq

namespace Platform

/-- All platforms. -/
def all : List Platform :=
  [.native, .linuxX86_64, .windowsX86_64, .macosAarch64]

/-- The name of a platform. -/
def name : Platform → String
  | .native => "native"
  | .linuxX86_64 => "linux-x86_64"
  | .windowsX86_64 => "windows-x86_64"
  | .macosAarch64 => "macos-aarch64"

/-- The triple of a platform. The compiler itself is for Linux. -/
def triple : Platform → String
  | .native | .linuxX86_64 => "x86_64-unknown-linux-gnu"
  | .windowsX86_64 => "x86_64-pc-windows-msvc"
  | .macosAarch64 => "arm64-apple-macosx"

/-- The platform with a name, in any case. -/
def ofText? (text : String) : Option Platform :=
  all.find? fun p => Text.agreesCaseless p.name text

end Platform
end Oberon
