import Autotree.Descriptor.Layout
import Autotree.Host.Error
import Autotree.Host.Project

/-!
# The input of autoconf

`configure.ac` is a fixed sequence of directives, because autoconf reads them in
order.  It declares the version of autoconf on the host as its prerequisite, so
it cannot be written for a project whose autoconf has no known version.
-/

namespace Autotree.Descriptor

/-- The tool whose version the descriptor declares. -/
def versionTool : String := "autoconf"

/-- The directives for a known version of autoconf. -/
def configureLines (version : String) (project : Project) (libs : List String) : List String :=
  ["AC_PREREQ([" ++ version ++ "])",
    "AC_INIT([" ++ project.name ++ "], [" ++ project.version ++ "])",
    "AC_CONFIG_SRCDIR([config.h.in])",
    "AC_CONFIG_HEADERS([config.h])",
    "AC_CONFIG_MACRO_DIR([" ++ Layout.macroDir ++ "])",
    "LT_INIT",
    "AC_PROG_CC",
    "AC_PROG_RANLIB"] ++
  (if libs.isEmpty then [] else ["AC_CHECK_LIB([" ++ " ".intercalate libs ++ "])"]) ++
  ["AM_INIT_AUTOMAKE([foreign subdir-objects -Werror])",
    "AC_OUTPUT([Makefile])"]

/-- The text of `configure.ac`. -/
def configure (project : Project) (libs : List String) : Except HostError String :=
  match project.toolVersion? versionTool with
  | some version =>
    .ok (String.join ((configureLines version project libs).map (· ++ "\n")))
  | none => .error (.toolVersion versionTool)

end Autotree.Descriptor
